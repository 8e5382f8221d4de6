import BlockLens.Block.Attributes
import BlockLens.Text.Blank
import BlockLens.Text.Scan
/-!
Open tags. `Tag.read?` takes a tag off the front of a text and returns what follows it; the reader
never fails in the middle of an attribute, only at the end of the text or at an open quotation.
-/

set_option autoImplicit false

namespace BlockLens

open Text

structure Tag where
  name : String
  attrs : Attributes
  selfClosing : Bool
  deriving DecidableEq, Repr

namespace Tag

def isNameStart (c : Char) : Bool := c.isAlpha

def isNameChar (c : Char) : Bool := c.isAlphanum || c == '-' || c == '_' || c == ':' || c == '.'

def isKeyChar (c : Char) : Bool := !(isBlank c || c == '=' || c == '>' || c == '/')

def isValueChar (c : Char) : Bool := !(isBlank c || c == '>')

def isQuote (c : Char) : Bool := c == '"' || c == '\x27'

def value? : List Char → Option (List Char × List Char)
  | [] => some ([], [])
  | c :: s =>
    if isQuote c then cut? [c] s
    else some ((c :: s).takeWhile isValueChar, (c :: s).dropWhile isValueChar)

theorem length_value?_le {s v r : List Char} (h : value? s = some (v, r)) :
    r.length ≤ s.length := by
  cases s with
  | nil => simp [value?] at h; simp [h]
  | cons c s =>
    simp only [value?] at h
    split at h
    · have := length_of_cut? h; simp at *; omega
    · simp only [Option.some.injEq, Prod.mk.injEq] at h
      rw [← h.2]; exact length_dropWhile_le _ _

/-- What `rest?` sees at the front of a text once the blanks are gone. -/
inductive Item where
  /-- The tag ends here; the flag tells whether it closes itself. -/
  | close (selfClosing : Bool) (rest : List Char)
  /-- A character that belongs to nothing. -/
  | stray (rest : List Char)
  | bare (key : List Char) (rest : List Char)
  | valued (key value : List Char) (rest : List Char)
  /-- The text ends inside the tag. -/
  | broken

def Item.rest : Item → List Char
  | .close _ r | .stray r | .bare _ r | .valued _ _ r => r
  | .broken => []

def keyed (key s : List Char) : Item :=
  match s.dropWhile isBlank with
  | '=' :: t =>
    match value? (t.dropWhile isBlank) with
    | some (v, r) => .valued key v r
    | none => .broken
  | _ => .bare key s

def item : List Char → Item
  | [] => .broken
  | '>' :: r => .close false r
  | '/' :: '>' :: r => .close true r
  | c :: s =>
    if isKeyChar c then keyed ((c :: s).takeWhile isKeyChar) ((c :: s).dropWhile isKeyChar)
    else .stray s

theorem length_keyed_le (key s : List Char) : (keyed key s).rest.length ≤ s.length := by
  unfold keyed
  have hs := length_dropWhile_le isBlank s
  split
  · next t ht =>
    rw [ht] at hs
    have h2 := length_dropWhile_le isBlank t
    split
    · next v r hv =>
      have h3 := length_value?_le hv
      simp [Item.rest] at *; omega
    · simp [Item.rest]
  · simp [Item.rest]

theorem length_item_lt {c : Char} {s : List Char} : (item (c :: s)).rest.length < s.length + 1 := by
  unfold item
  split
  · contradiction
  · next h =>
    simp only [List.cons.injEq] at h
    simp only [Item.rest, h.2]
    omega
  · next h =>
    simp only [List.cons.injEq] at h
    simp only [Item.rest, h.2, List.length_cons]
    omega
  · next h =>
    simp only [List.cons.injEq] at h
    obtain ⟨rfl, rfl⟩ := h
    split
    · next hc =>
      have h1 := length_keyed_le ((c :: s).takeWhile isKeyChar) ((c :: s).dropWhile isKeyChar)
      have h2 := length_dropWhile_le isKeyChar s
      simp only [List.dropWhile_cons, hc, if_true] at h1
      rw [List.dropWhile_cons, if_pos hc]
      omega
    · simp [Item.rest]

def rest? (acc : Attributes) (s : List Char) : Option (Attributes × Bool × List Char) :=
  match _h : s.dropWhile isBlank with
  | [] => none
  | c :: t =>
    match _h' : item (c :: t) with
    | .broken => none
    | .close b r => some (acc, b, r)
    | .stray r => rest? acc r
    | .bare k r => rest? (acc.insert (String.ofList k) "true") r
    | .valued k v r => rest? (acc.insert (String.ofList k) (String.ofList v)) r
termination_by s.length
decreasing_by
  all_goals
    have h1 := length_dropWhile_le isBlank s
    have h2 := @length_item_lt c t
    rw [_h] at h1
    rw [_h'] at h2
    simp only [Item.rest, List.length_cons] at h1 h2
    omega

/-- The tag at the front of a text. Its name is read in lower case. -/
def read? : List Char → Option (Tag × List Char)
  | '<' :: c :: s =>
    if isNameStart c then
      let name := ((c :: s).takeWhile isNameChar).map Char.toLower
      (rest? (.ofList []) ((c :: s).dropWhile isNameChar)).map fun p =>
        (⟨String.ofList name, p.1, p.2.1⟩, p.2.2)
    else none
  | _ => none

theorem length_rest?_lt {acc a : Attributes} {b : Bool} {s r : List Char}
    (h : rest? acc s = some (a, b, r)) : r.length < s.length := by
  fun_induction rest? acc s with
  | case1 => simp at h
  | case2 => simp at h
  | case3 acc s c t hs b' r' hi =>
    simp only [Option.some.injEq, Prod.mk.injEq] at h
    obtain ⟨_, _, rfl⟩ := h
    have h1 := length_dropWhile_le isBlank s
    have h2 := @length_item_lt c t
    rw [hs] at h1
    rw [hi] at h2
    simp only [Item.rest, List.length_cons] at h1 h2
    omega
  | case4 acc s c t hs r' hi ih | case5 acc s c t hs k r' hi ih | case6 acc s c t hs k v r' hi ih =>
    have h3 := ih h
    have h1 := length_dropWhile_le isBlank s
    have h2 := @length_item_lt c t
    rw [hs] at h1
    rw [hi] at h2
    simp only [Item.rest, List.length_cons] at h1 h2
    omega

theorem length_read?_lt {s r : List Char} {t : Tag} (h : read? s = some (t, r)) :
    r.length < s.length := by
  unfold read? at h
  split at h
  · next c s =>
    split at h
    · simp only [Option.map_eq_some_iff, Prod.mk.injEq] at h
      obtain ⟨⟨a, b, r'⟩, hr, _, rfl⟩ := h
      have h1 := length_rest?_lt hr
      have h2 := length_dropWhile_le isNameChar (c :: s)
      simp only [List.length_cons] at *
      omega
    · simp at h
  · simp at h

end Tag

end BlockLens
