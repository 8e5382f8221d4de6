/-!
Reading a text from the left. A text is a list of characters; an offset counts the bytes of its
UTF-8 form. `after?` removes a word from the front, `cut?` finds the first place of a word.
-/

set_option autoImplicit false

namespace BlockLens.Text

/-- Bytes of the UTF-8 form. -/
def width : List Char → Nat
  | [] => 0
  | c :: r => c.utf8Size + width r

@[simp] theorem width_append (s t : List Char) : width (s ++ t) = width s + width t := by
  induction s with
  | nil => simp [width]
  | cons c r ih => simp [width, ih]; omega

theorem length_le_width (s : List Char) : s.length ≤ width s := by
  induction s with
  | nil => simp [width]
  | cons c r ih => have := c.utf8Size_pos; simp [width]; omega

def bytes (s : String) : Nat := width s.toList

/-- What follows `w` at the front of a text. -/
def after? : List Char → List Char → Option (List Char)
  | [], s => some s
  | _ :: _, [] => none
  | a :: w, b :: s => if a = b then after? w s else none

theorem after?_eq_some {w s r : List Char} : after? w s = some r ↔ s = w ++ r := by
  induction w generalizing s with
  | nil => simp [after?]
  | cons a w ih =>
    cases s with
    | nil => simp [after?]
    | cons b s =>
      by_cases h : a = b
      · simp [after?, h, ih]
      · have hb : b ≠ a := fun e => h e.symm
        simp [after?, h, hb]

def startsWith (w s : List Char) : Bool := (after? w s).isSome

def before? (w s : List Char) : Option (List Char) :=
  (after? w.reverse s.reverse).map List.reverse

theorem before?_eq_some {w s r : List Char} : before? w s = some r ↔ s = r ++ w := by
  simp only [before?, Option.map_eq_some_iff, after?_eq_some]
  constructor
  · rintro ⟨t, ht, rfl⟩
    have := congrArg List.reverse ht
    simpa using this
  · rintro rfl
    exact ⟨r.reverse, by simp, by simp⟩

/-- The text before the first `w` and the text after it. -/
def cut? (w : List Char) : List Char → Option (List Char × List Char)
  | [] => (after? w []).map fun r => ([], r)
  | c :: s =>
    match after? w (c :: s) with
    | some r => some ([], r)
    | none => (cut? w s).map fun p => (c :: p.1, p.2)

theorem eq_of_cut? {w s b r : List Char} (h : cut? w s = some (b, r)) : s = b ++ w ++ r := by
  induction s generalizing b r with
  | nil =>
    simp only [cut?, Option.map_eq_some_iff, after?_eq_some, Prod.mk.injEq] at h
    obtain ⟨t, ht, rfl, rfl⟩ := h
    simpa using ht
  | cons c s ih =>
    simp only [cut?] at h
    split at h
    · next t ht =>
      simp only [Option.some.injEq, Prod.mk.injEq] at h
      obtain ⟨rfl, rfl⟩ := h
      simpa using after?_eq_some.1 ht
    · simp only [Option.map_eq_some_iff, Prod.mk.injEq] at h
      obtain ⟨⟨b', r'⟩, hp, rfl, rfl⟩ := h
      simp [ih hp]

theorem length_of_cut? {w s b r : List Char} (h : cut? w s = some (b, r)) :
    s.length = b.length + w.length + r.length := by
  rw [eq_of_cut? h]; simp; omega

def contains (w s : List Char) : Bool := (cut? w s).isSome

theorem length_dropWhile_le (p : Char → Bool) (s : List Char) :
    (s.dropWhile p).length ≤ s.length :=
  (List.dropWhile_sublist p).length_le

/-- The pieces between the characters that `p` accepts: one more than there are of those. -/
def pieces (p : Char → Bool) : List Char → List (List Char)
  | [] => [[]]
  | c :: s =>
    if p c then [] :: pieces p s
    else match pieces p s with
      | [] => [[c]]
      | t :: ts => (c :: t) :: ts

def lastPiece (p : Char → Bool) (s : List Char) : List Char :=
  (s.reverse.takeWhile fun c => !p c).reverse

end BlockLens.Text
