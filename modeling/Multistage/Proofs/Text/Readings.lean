import Mathlib
import Multistage.Ty.Printer

/-!
# Reading texts back

Layouts and types are compared by their texts, so a comparison is right exactly if a text can be
read back in one way. Each lemma here says so for one piece of text with anything behind it: the
text fixes what was written and where it ends. Numbers end where no digit follows, lists end at
their bracket, and a run of items ends where no other item starts. That the digits of a number fix
it is `Nat.repr_inj` and `Int.repr_injective` of the standard library, which only the whole of
Mathlib brings in.
-/

namespace Multistage

/-! ## Numbers -/

/-- The characters that numbers are written with. -/
def isNumeral (c : Char) : Bool := c.isDigit || c == '-'

/-- A number before `s` ends there. -/
def Stops (s : String) : Prop := s.toList.head?.any isNumeral = false

instance (s : String) : Decidable (Stops s) := inferInstanceAs (Decidable (_ = false))

theorem stops_append {s : String} (t : String) (h : s ≠ "" ∧ Stops s) : Stops (s ++ t) := by
  obtain ⟨hs, hstop⟩ := h
  obtain ⟨c, cs, hcs⟩ := List.exists_cons_of_ne_nil fun h => hs (String.toList_eq_nil_iff.mp h)
  rw [Stops, hcs] at hstop
  rwa [Stops, String.toList_append, hcs]

theorem isNumeral_of_mem_toString {n : Int} {c : Char} (h : c ∈ (toString n).toList) :
    isNumeral c = true := by
  have hdigits : ∀ {m : Nat}, c ∈ m.repr.toList → c.isDigit = true := by
    intro m hm
    rw [Nat.toList_repr] at hm
    exact Nat.isDigit_of_mem_toDigits (by decide) (by decide) hm
  -- a number is written as digits, with a sign before them if it is negative
  rw [Int.toString_eq_repr, Int.repr_eq_if] at h
  rw [isNumeral, Bool.or_eq_true, beq_iff_eq]
  split at h
  · exact Or.inl (hdigits h)
  · rw [String.toList_append, List.mem_append] at h
    rcases h with hsign | hm
    · exact Or.inr (by simpa using hsign)
    · exact Or.inl (hdigits hm)

theorem exists_toList_toString (n : Int) : ∃ c cs, (toString n).toList = c :: cs := by
  apply List.exists_cons_of_ne_nil
  rw [Int.toString_eq_repr, Int.repr_eq_if]
  split
  · simp [Nat.toDigits_ne_nil]
  · simp

/-- What `Stops` a number does not start with one. -/
theorem Stops.ne_toString {s : String} (h : Stops s) (n : Int) (t : String) :
    s ≠ toString n ++ t := by
  rintro rfl
  obtain ⟨c, cs, hcs⟩ := exists_toList_toString n
  have hc : isNumeral c = true :=
    isNumeral_of_mem_toString (n := n) (by rw [hcs]; exact List.mem_cons_self)
  rw [Stops, String.toList_append, hcs] at h
  exact absurd hc (Bool.not_eq_true _ ▸ h)

/-- `toString n` is the longest run of numerals. -/
theorem takeWhile_toString {s : String} (hs : Stops s) (n : Int) :
    (toString n ++ s).toList.takeWhile isNumeral = (toString n).toList := by
  rw [String.toList_append, List.takeWhile_append_of_pos fun c hc => isNumeral_of_mem_toString hc]
  cases hlist : s.toList with
  | nil => simp
  | cons c cs =>
    have hc : isNumeral c = false := by rwa [Stops, hlist] at hs
    simp [hc]

theorem toString_append_inj {m n : Int} {r s : String} (hr : Stops r) (hs : Stops s)
    (h : toString m ++ r = toString n ++ s) : m = n ∧ r = s := by
  -- the longest runs of numerals are the same on both sides, and they are the two numbers
  have hchars := congrArg (fun t : String => t.toList.takeWhile isNumeral) h
  simp only [takeWhile_toString hr, takeWhile_toString hs, String.toList_inj] at hchars
  have hmn : m = n := by
    rw [Int.toString_eq_repr, Int.toString_eq_repr] at hchars
    exact Int.repr_injective hchars
  subst hmn
  exact ⟨rfl, (String.append_right_inj _).mp h⟩

/-! ## Runs of items -/

section Runs

variable {α β : Type} {text : α → String} {norm : α → β} {Behind : String → Prop}

/-- A run of items `xs` can be read back as far as each item can with anything `Behind` it that may
follow an item, if what comes after the run starts with no item. -/
theorem join_append_inj
    (hreads : ∀ a b r s, Behind r → Behind s → text a ++ r = text b ++ s → norm a = norm b ∧ r = s)
    (hitem : ∀ a r, Behind (text a ++ r)) {xs ys : List α} {r s : String}
    (hr : Behind r) (hs : Behind s) (hr' : ∀ a t, r ≠ text a ++ t) (hs' : ∀ a t, s ≠ text a ++ t)
    (h : String.join (xs.map text) ++ r = String.join (ys.map text) ++ s) :
    xs.map norm = ys.map norm ∧ r = s := by
  -- behind an item comes another one or what is behind the run
  have hrest : ∀ {zs : List α} {t : String}, Behind t → Behind (String.join (zs.map text) ++ t) := by
    intro zs t ht
    cases zs with
    | nil => simpa using ht
    | cons z zs =>
      rw [List.map_cons, String.join_cons, String.append_assoc]
      exact hitem z _
  -- a run that ends before the other one would have an item behind it
  induction xs generalizing ys with
  | nil =>
    cases ys with
    | nil => exact ⟨rfl, by simpa using h⟩
    | cons y ys =>
      rw [List.map_cons, String.join_cons, String.append_assoc] at h
      exact absurd (by simpa using h) (hr' y _)
  | cons x xs ih =>
    rw [List.map_cons, String.join_cons, String.append_assoc] at h
    cases ys with
    | nil => exact absurd (by simpa using h.symm) (hs' x _)
    | cons y ys =>
      rw [List.map_cons, String.join_cons, String.append_assoc] at h
      obtain ⟨hxy, hxs⟩ := hreads x y _ _ (hrest hr) (hrest hs) h
      obtain ⟨hmaps, hrs⟩ := ih hxs
      exact ⟨by rw [List.map_cons, List.map_cons, hxy, hmaps], hrs⟩

/-- `intercalate` has `sep` before every entry but the first. -/
theorem intercalate_cons (sep first : String) (rest : List String) :
    sep.intercalate (first :: rest) = first ++ String.join (rest.map (sep ++ ·)) := by
  induction rest generalizing first with
  | nil => simp
  | cons next rest ih =>
    rw [String.intercalate_cons_cons, ih, List.map_cons, String.join_cons, String.append_assoc,
      String.append_assoc]

end Runs

/-- A run of numbers, each behind a separator `sep` that is no part of a number. -/
theorem separated_append_inj {sep : String} (hsep : sep ≠ "" ∧ Stops sep) {xs ys : List Int}
    {r s : String} (hr : Stops r) (hs : Stops s) (hr' : ∀ t, r ≠ sep ++ t) (hs' : ∀ t, s ≠ sep ++ t)
    (h : String.join (xs.map fun d => sep ++ toString d) ++ r =
      String.join (ys.map fun d => sep ++ toString d) ++ s) : xs = ys ∧ r = s := by
  have hreads : ∀ (a b : Int) (t u : String), Stops t → Stops u →
      sep ++ toString a ++ t = sep ++ toString b ++ u → id a = id b ∧ t = u := by
    intro a b t u ht hu hab
    rw [String.append_assoc, String.append_assoc, String.append_right_inj] at hab
    exact toString_append_inj ht hu hab
  have hitem : ∀ (a : Int) (t : String), Stops (sep ++ toString a ++ t) := by
    intro a t
    rw [String.append_assoc]
    exact stops_append _ hsep
  obtain ⟨hxy, hrs⟩ := join_append_inj hreads hitem hr hs
    (fun a t => by rw [String.append_assoc]; exact hr' _)
    (fun a t => by rw [String.append_assoc]; exact hs' _) h
  exact ⟨by simpa using hxy, hrs⟩

theorem listText_nil_append (r : String) : listText [] ++ r = "[" ++ ("]" ++ r) := by
  rw [listText, List.map_nil, String.intercalate_nil, String.append_empty, String.append_assoc]

theorem listText_cons_append (x : Int) (xs : List Int) (r : String) :
    listText (x :: xs) ++ r =
      "[" ++ (toString x ++ (String.join (xs.map fun d => ", " ++ toString d) ++ ("]" ++ r))) := by
  simp only [listText, List.map_cons, intercalate_cons, List.map_map, String.append_assoc]
  rfl

theorem stops_separated {sep t : String} (hsep : sep ≠ "" ∧ Stops sep) (ht : Stops t)
    (xs : List Int) : Stops (String.join (xs.map fun d => sep ++ toString d) ++ t) := by
  cases xs with
  | nil => simpa using ht
  | cons x xs =>
    rw [List.map_cons, String.join_cons, String.append_assoc, String.append_assoc]
    exact stops_append _ hsep

theorem listText_append_inj {xs ys : List Int} {r s : String}
    (h : listText xs ++ r = listText ys ++ s) : xs = ys ∧ r = s := by
  have hclose : ∀ t : String, Stops ("]" ++ t) := fun t => stops_append t (by decide +kernel)
  have hnone : ∀ t u : String, "]" ++ t ≠ ", " ++ u := by
    intro t u htu
    simpa using congrArg String.toList htu
  -- where an empty list has its bracket, another one has a number
  cases xs with
  | nil =>
    cases ys with
    | nil => exact ⟨rfl, (String.append_right_inj _).mp h⟩
    | cons y ys =>
      rw [listText_nil_append, listText_cons_append, String.append_right_inj] at h
      exact absurd h ((hclose r).ne_toString y _)
  | cons x xs =>
    cases ys with
    | nil =>
      rw [listText_nil_append, listText_cons_append, String.append_right_inj] at h
      exact absurd h.symm ((hclose s).ne_toString x _)
    | cons y ys =>
      rw [listText_cons_append, listText_cons_append, String.append_right_inj] at h
      have hcomma : ", " ≠ "" ∧ Stops ", " := by decide +kernel
      obtain ⟨rfl, hrest⟩ := toString_append_inj (stops_separated hcomma (hclose r) xs)
        (stops_separated hcomma (hclose s) ys) h
      obtain ⟨rfl, hrs⟩ := separated_append_inj hcomma (hclose r) (hclose s) (hnone r) (hnone s) hrest
      exact ⟨rfl, (String.append_right_inj _).mp hrs⟩

theorem boolText_append_inj {a b : Bool} {r s : String} (h : boolText a ++ r = boolText b ++ s) :
    a = b ∧ r = s := by
  cases a <;> cases b
  case true.true => exact ⟨rfl, (String.append_right_inj _).mp h⟩
  case false.false => exact ⟨rfl, (String.append_right_inj _).mp h⟩
  all_goals
    simpa [boolText] using congrArg String.toList h

/-! ## Fields

A field is followed by the name of the next one, or by what closes the record. -/

section Fields

variable {lit r s : String}

theorem number_field {m n : Int} (hlit : lit ≠ "" ∧ Stops lit)
    (h : toString m ++ (lit ++ r) = toString n ++ (lit ++ s)) : m = n ∧ r = s := by
  obtain ⟨hmn, hrest⟩ := toString_append_inj (stops_append r hlit) (stops_append s hlit) h
  exact ⟨hmn, (String.append_right_inj _).mp hrest⟩

theorem list_field {xs ys : List Int} (h : listText xs ++ (lit ++ r) = listText ys ++ (lit ++ s)) :
    xs = ys ∧ r = s := by
  obtain ⟨hxy, hrest⟩ := listText_append_inj h
  exact ⟨hxy, (String.append_right_inj _).mp hrest⟩

theorem bool_field {a b : Bool} (h : boolText a ++ (lit ++ r) = boolText b ++ (lit ++ s)) :
    a = b ∧ r = s := by
  obtain ⟨hab, hrest⟩ := boolText_append_inj h
  exact ⟨hab, (String.append_right_inj _).mp hrest⟩

end Fields

end Multistage
