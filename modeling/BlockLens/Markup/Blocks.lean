import BlockLens.Block.Basic
import BlockLens.Markup.Tag
/-!
Splitting a composite text into its top-level blocks. Content is not looked into, except that a
template may hold further templates and so ends where as many are closed as were opened.
-/

set_option autoImplicit false

namespace BlockLens.Markup

open Text

/-- An open tag called `name` that has to be closed stands at the front. -/
def opens (name s : List Char) : Bool :=
  match after? ('<' :: name) s with
  | none => false
  | some t =>
    (match t with
      | [] => true
      | c :: _ => isBlank c || c == '>' || c == '/') &&
    (match Tag.read? s with
      | some (tag, _) => !tag.selfClosing
      | none => false)

def countOpens (name : List Char) : Nat → List Char → Nat
  | 0, _ | _, [] => 0
  | n + 1, c :: s => (if opens name (c :: s) then 1 else 0) + countOpens name n s

def depthAfter (name : List Char) (nested : Bool) (depth : Nat) (body s : List Char) : Nat :=
  if nested then depth + countOpens name body.length s else depth

/-- The content up to the end tag that closes the element, `depth` inner ones being open, and the
text behind that end tag. -/
def content? (name : List Char) (nested : Bool) (depth : Nat) (s : List Char) :
    Option (List Char × List Char) :=
  match _h : cut? ('<' :: '/' :: name) s with
  | none => none
  | some (body, t) =>
    match _h' : cut? ['>'] t with
    | none => none
    | some (gap, r) =>
      match depthAfter name nested depth body s with
      | 0 => some (body, r)
      | d + 1 =>
        (content? name nested d r).map fun p =>
          (body ++ '<' :: '/' :: name ++ gap ++ '>' :: p.1, p.2)
termination_by s.length
decreasing_by
  have h1 := length_of_cut? _h
  have h2 := length_of_cut? _h'
  simp only [List.length_cons, List.length_nil] at h1 h2
  omega

theorem eq_of_content? {name : List Char} {nested : Bool} {depth : Nat} {s b r : List Char}
    (h : content? name nested depth s = some (b, r)) :
    ∃ gap, s = b ++ '<' :: '/' :: name ++ gap ++ '>' :: r := by
  fun_induction content? name nested depth s generalizing b r with
  | case1 => simp at h
  | case2 => simp at h
  | case3 depth s body t h1 gap r' h2 hd =>
    simp only [Option.some.injEq, Prod.mk.injEq] at h
    obtain ⟨rfl, rfl⟩ := h
    refine ⟨gap, ?_⟩
    rw [eq_of_cut? h1, eq_of_cut? h2]; simp
  | case4 depth s body t h1 gap r' h2 d hd ih =>
    simp only [Option.map_eq_some_iff, Prod.mk.injEq] at h
    obtain ⟨⟨b', r''⟩, hp, rfl, rfl⟩ := h
    obtain ⟨g, hg⟩ := ih hp
    refine ⟨g, ?_⟩
    rw [eq_of_cut? h1, eq_of_cut? h2, hg]; simp

theorem length_content?_lt {name : List Char} {nested : Bool} {depth : Nat} {s b r : List Char}
    (h : content? name nested depth s = some (b, r)) : r.length < s.length := by
  obtain ⟨gap, rfl⟩ := eq_of_content? h
  simp; omega

def block (tag : Tag) (start : Nat) (content : List Char) : Block where
  kind := .ofTag tag.name
  lang := tag.attrs.get? "lang"
  attrs := tag.attrs
  span := ⟨start, start + width content⟩
  content := String.ofList content

def Parsed.cons (b : Block) (p : Parsed) : Parsed := { p with blocks := b :: p.blocks }

/-- Splits the text `s`, which begins at offset `o`. -/
def splitAt (o : Nat) (s : List Char) : Parsed :=
  match s with
  | [] => {}
  | '<' :: '!' :: '-' :: '-' :: t =>
    match _h : cut? ['-', '-', '>'] t with
    | some (c, r) => splitAt (o + 4 + width c + 3) r
    | none => { errors := [⟨"Unterminated comment", ⟨o, o + 4 + width t⟩⟩] }
  | '<' :: '/' :: t =>
    match _h : cut? ['>'] t with
    | some (c, r) => splitAt (o + 2 + width c + 1) r
    | none => {}
  | c :: t =>
    match _h : Tag.read? (c :: t) with
    | none => splitAt (o + c.utf8Size) t
    | some (tag, r) =>
      let start := o + (width (c :: t) - width r)
      if tag.selfClosing then Parsed.cons (block tag start []) (splitAt start r)
      else
        match _h' : content? tag.name.toList (tag.name == "template") 0 r with
        | some (body, r') =>
          Parsed.cons (block tag start body) (splitAt (start + (width r - width r')) r')
        | none =>
          { errors := [⟨s!"Element <{tag.name}> is missing end tag.", ⟨o, o + width (c :: t)⟩⟩] }
termination_by s.length
decreasing_by
  · have := length_of_cut? _h; simp at *; omega
  · have := length_of_cut? _h; simp at *; omega
  · simp
  · have := Tag.length_read?_lt _h; simp at *; omega
  · have h1 := Tag.length_read?_lt _h
    have h2 := length_content?_lt _h'
    simp at *; omega

def split (text : String) : Parsed := splitAt 0 text.toList

end BlockLens.Markup
