import BlockLens.Proofs.Markup
import BlockLens.Proofs.Text.Cursor
/-!
The splitter by places: a scanner that goes through the bytes of a text and cuts it at places that
it has computed. It fails where a cut would be inside a character or behind the end, and where a
loop makes more turns than there are bytes. Of two options the outer one tells of such a failure,
and the inner one is the answer. Here it is shown that tags are read as the reader of characters
reads them.
-/

set_option autoImplicit false

namespace BlockLens

open Text

namespace Markup

namespace Scanner

variable (t : List Char)

def value (i : Nat) : Option (Option (List Char × Nat)) :=
  match (charAt? t i).filter Tag.isQuote with
  | some q => do
    let s ← from? t (i + 1)
    match cut? [q] s with
    | none => return none
    | some (v, _) =>
      let j := i + 1 + width v
      return some (← slice? t (i + 1) j, j + 1)
  | none => do
    let j ← skip? Tag.isValueChar t i
    return some (← slice? t i j, j)

inductive Item where
  | close (selfClosing : Bool) (stop : Nat)
  | stray (stop : Nat)
  | bare (key : List Char) (stop : Nat)
  | valued (key value : List Char) (stop : Nat)
  | broken

def keyed (key : List Char) (j : Nat) : Option Item := do
  let k ← skip? isBlank t j
  if (charAt? t k).any (· == '=') then
    let i ← skip? isBlank t (k + 1)
    match ← value t i with
    | none => return .broken
    | some (v, e) => return .valued key v e
  else return .bare key j

def item (i : Nat) : Option Item := do
  let i ← skip? isBlank t i
  if (charAt? t i).isNone then return .broken
  else if (charAt? t i).any (· == '>') then return .close false (i + 1)
  else if (charAt? t i).any (· == '/') && (charAt? t (i + 1)).any (· == '>') then
    return .close true (i + 2)
  else
    let j ← skip? Tag.isKeyChar t i
    if j = i then return .stray (i + 1)
    else keyed t (← slice? t i j) j

def attributesIn : Nat → Attributes → Nat → Option (Option (Attributes × Bool × Nat))
  | 0, _, _ => none
  | n + 1, acc, i => do
    match ← item t i with
    | .broken => return none
    | .close b e => return some (acc, b, e)
    | .stray e => attributesIn n acc e
    | .bare k e => attributesIn n (acc.insert (String.ofList k) "true") e
    | .valued k v e => attributesIn n (acc.insert (String.ofList k) (String.ofList v)) e

def tag (i : Nat) : Option (Option (Tag × Nat)) :=
  if (charAt? t (i + 1)).any Tag.isNameStart then do
    let j ← skip? Tag.isNameChar t (i + 1)
    let name ← slice? t (i + 1) j
    let rest ← attributesIn t (turns t) (.ofList []) j
    return rest.map fun p => (⟨String.ofList (name.map Char.toLower), p.1, p.2.1⟩, p.2.2)
  else return none

def opensAt (name : List Char) (i : Nat) : Option Bool :=
  if (charAt? t (i + width ('<' :: name))).all fun c => isBlank c || c == '>' || c == '/' then
    (tag t i).map (·.any fun p => !p.1.selfClosing)
  else some false

def openedIn (name : List Char) (stop : Nat) : Nat → Nat → Nat → Option Nat
  | 0, _, _ => none
  | n + 1, depth, i =>
    match find? ('<' :: name) t i with
    | none => some depth
    | some j =>
      if stop ≤ j then some depth
      else do
        let depth := if ← opensAt t name j then depth + 1 else depth
        openedIn name stop n depth (j + width ('<' :: name))

def depthAt (name : List Char) (nested : Bool) (stop depth i : Nat) : Option Nat :=
  if nested then openedIn t name stop (turns t) depth i else some depth

def contentIn (name : List Char) (nested : Bool) : Nat → Nat → Nat → Option (Option (Nat × Nat))
  | 0, _, _ => none
  | n + 1, depth, i =>
    match find? ('<' :: '/' :: name) t i with
    | none => some none
    | some stop => do
      let depth ← depthAt t name nested stop depth i
      match find? ['>'] t stop with
      | none => return none
      | some j =>
        if depth = 0 then return some (stop, j + 1)
        else contentIn name nested n (depth - 1) (j + 1)

def made (g : Tag) (i j : Nat) (body : List Char) : Block where
  kind := .ofTag g.name
  lang := g.attrs.get? "lang"
  attrs := g.attrs
  span := ⟨i, j⟩
  content := String.ofList body

inductive Turn where
  | skip (next : Nat)
  | block (b : Block) (next : Nat)
  | error (e : ParseError) (next : Nat)
  | last (e : ParseError)

def turn (i : Nat) : Option Turn := do
  let s ← from? t i
  if startsWith ['<', '!', '-', '-'] s then
    match find? ['-', '-', '>'] t (i + 4) with
    | some j => return .skip (j + 3)
    | none => return .error ⟨"Unterminated comment", ⟨i, width t⟩⟩ (width t)
  else if startsWith ['<', '/'] s then
    match find? ['>'] t i with
    | some j => return .skip (j + 1)
    | none => return .skip (width t)
  else
    match ← tag t i with
    | none => return .skip (i + 1)
    | some (g, j) =>
      if g.selfClosing then return .block (made g j j []) j
      else
        match ← contentIn t g.name.toList (g.name == "template") (turns t) 0 j with
        | some (k, next) => return .block (made g j k (← slice? t j k)) next
        | none => return .last ⟨s!"Element <{g.name}> is missing end tag.", ⟨i, width t⟩⟩

def blocksIn : Nat → Nat → Option Parsed
  | 0, _ => none
  | n + 1, i =>
    match find? ['<'] t i with
    | none => some {}
    | some i => do
      match ← turn t i with
      | .skip j => blocksIn n j
      | .block b j => return Parsed.cons b (← blocksIn n j)
      | .error e j =>
        let p ← blocksIn n j
        return { p with errors := e :: p.errors }
      | .last e => return { errors := [e] }

theorem narrow_isNameStart : Narrow Tag.isNameStart := narrow_isAlpha

theorem narrow_isNameChar : Narrow Tag.isNameChar := by
  intro c hc
  simp only [Tag.isNameChar, Bool.or_eq_true, beq_iff_eq] at hc
  rcases hc with (((h | rfl) | rfl) | rfl) | rfl
  · exact toNat_lt_of_isAlphanum h
  all_goals decide

theorem narrow_isQuote : Narrow Tag.isQuote := by
  intro c hc
  simp only [Tag.isQuote, Bool.or_eq_true, beq_iff_eq] at hc
  rcases hc with rfl | rfl <;> decide

theorem narrow_keyEnd : Narrow fun c => isBlank c || c == '=' || c == '>' || c == '/' :=
  narrow_or (narrow_or (narrow_or narrow_isBlank (narrow_beq (by decide)))
    (narrow_beq (by decide))) (narrow_beq (by decide))

theorem bytewise_isKeyChar : Bytewise Tag.isKeyChar := narrow_keyEnd.bytewise.not

theorem bytewise_isValueChar : Bytewise Tag.isValueChar :=
  (narrow_or narrow_isBlank (narrow_beq (by decide))).bytewise.not

variable {t} {s : List Char}

theorem value_offset (h : s <:+ t) :
    value t (offset t s) = some ((Tag.value? s).map fun p => (p.1, offset t p.2)) := by
  have hplain : (skip? Tag.isValueChar t (offset t s)).bind (fun j =>
      (slice? t (offset t s) j).bind fun v => some (some (v, j))) =
      some (some (s.takeWhile Tag.isValueChar, offset t (s.dropWhile Tag.isValueChar))) := by
    rw [bytewise_isValueChar.skip? h, Option.bind_some, slice?_dropWhile _ h, Option.bind_some]
  rw [value, narrow_isQuote.filter_charAt? h]
  cases s with
  | nil => exact hplain
  | cons c s =>
    rw [List.head?_cons, Option.filter_some]
    cases hq : Tag.isQuote c with
    | false =>
      simp only [Tag.value?, hq, Bool.false_eq_true, if_false]
      exact hplain
    | true =>
      have hs : s <:+ t := (List.suffix_cons c s).trans h
      rw [if_pos rfl, offset_cons h (narrow_isQuote c hq)]
      simp only [from?_offset hs, Tag.value?, hq, if_true, bind, Option.bind_some]
      cases hcut : cut? [c] s with
      | none => rfl
      | some p =>
        obtain ⟨v, r⟩ := p
        obtain rfl : s = v ++ (c :: r) := by rw [eq_of_cut? hcut]; simp
        have hr := suffix_of_append hs
        simp only [offset_add hs, slice?_offset hs, Option.bind_some, Option.map_some,
          offset_cons hr (narrow_isQuote c hq)]
        rfl

def placed (t : List Char) : Tag.Item → Item
  | .close b r => .close b (offset t r)
  | .stray r => .stray (offset t r)
  | .bare k r => .bare k (offset t r)
  | .valued k v r => .valued k v (offset t r)
  | .broken => .broken

theorem any_offset {x : Char} (hx : x.toNat < 128) (h : s <:+ t) :
    (charAt? t (offset t s)).any (· == x) = s.head?.any (· == x) :=
  (narrow_beq hx).bytewise.any_charAt? h

theorem keyed_offset (key : List Char) (h : s <:+ t) :
    keyed t key (offset t s) = some (placed t (Tag.keyed key s)) := by
  have hd : s.dropWhile isBlank <:+ t := (List.dropWhile_suffix _).trans h
  rw [keyed, narrow_isBlank.bytewise.skip? h]
  simp only [bind, Option.bind_some, any_offset (x := '=') (by decide) hd]
  by_cases hu : ∃ u, s.dropWhile isBlank = '=' :: u
  · obtain ⟨u, hu⟩ := hu
    rw [hu] at hd
    have hu' : u <:+ t := (List.suffix_cons _ u).trans hd
    have hv : u.dropWhile isBlank <:+ t := (List.dropWhile_suffix _).trans hu'
    simp only [Tag.keyed, hu, List.head?_cons, Option.any_some, beq_self_eq_true, if_true,
      offset_cons hd (by decide), narrow_isBlank.bytewise.skip? hu', Option.bind_some,
      value_offset hv]
    cases Tag.value? (u.dropWhile isBlank) <;> rfl
  · have hfalse : (s.dropWhile isBlank).head?.any (· == '=') = false := by
      cases hs : s.dropWhile isBlank with
      | nil => rfl
      | cons c u =>
        have hc : c ≠ '=' := by
          rintro rfl
          exact hu ⟨u, hs⟩
        simpa using hc
    have hbare : Tag.keyed key s = .bare key s := Tag.keyed_bare fun u hs => hu ⟨u, hs⟩
    simp only [hfalse, Bool.false_eq_true, if_false, hbare]
    rfl

theorem isNone_charAt? {c : Char} (h : c :: s <:+ t) :
    (charAt? t (offset t (c :: s))).isNone = false := by
  obtain ⟨d, hd, -⟩ := charAt?_cons h c.utf8Size_pos
  rw [Nat.add_zero] at hd
  rw [hd]
  rfl

theorem item_offset (h : s <:+ t) :
    item t (offset t s) = some (placed t (Tag.item (s.dropWhile isBlank))) := by
  have hd : s.dropWhile isBlank <:+ t := (List.dropWhile_suffix _).trans h
  rw [item, narrow_isBlank.bytewise.skip? h]
  simp only [bind, Option.bind_some]
  cases hs : s.dropWhile isBlank with
  | nil =>
    simp only [charAt?_nil, Option.isNone_none, if_true]
    rfl
  | cons c u =>
    rw [hs] at hd
    have hu : u <:+ t := (List.suffix_cons c u).trans hd
    have hnext : c = '/' → (charAt? t (offset t (c :: u) + 1)).any (· == '>') =
        u.head?.any (· == '>') := by
      rintro rfl
      rw [offset_cons hd (by decide), any_offset (by decide) hu]
    simp only [isNone_charAt? hd, Bool.false_eq_true, if_false, List.head?_cons, Option.any_some,
      any_offset (x := '>') (by decide) hd, any_offset (x := '/') (by decide) hd]
    by_cases hgt : c = '>'
    · subst hgt
      simp only [beq_self_eq_true, if_true, offset_cons hd (by decide)]
      rfl
    · by_cases hslash : c = '/' ∧ u.head? = some '>'
      · obtain ⟨rfl, hhead⟩ := hslash
        obtain ⟨r, rfl⟩ := List.head?_eq_some_iff.1 hhead
        have hplace : offset t ('/' :: '>' :: r) + 2 = offset t r := by
          rw [← offset_cons hu (by decide), ← offset_cons hd (by decide)]
        simp only [hnext, hplace, hhead, Option.any_some, beq_self_eq_true, Bool.and_self, if_true]
        rfl
      · have hclose : (c == '/' && (charAt? t (offset t (c :: u) + 1)).any (· == '>')) = false := by
          cases hc : c == '/' with
          | false => rfl
          | true =>
            rw [hnext (beq_iff_eq.1 hc), Bool.true_and, Bool.eq_false_iff]
            intro hany
            obtain ⟨d, hd', hgt'⟩ := (Option.any_eq_true _ _).1 hany
            rw [beq_iff_eq.1 hgt'] at hd'
            exact hslash ⟨beq_iff_eq.1 hc, hd'⟩
        have hitem := Tag.item_other hgt fun hc hhead => hslash ⟨hc, hhead⟩
        have hrest := (List.dropWhile_suffix (l := c :: u) Tag.isKeyChar).trans hd
        simp only [beq_eq_false_iff_ne.2 hgt, hclose, Bool.false_eq_true, if_false,
          bytewise_isKeyChar.skip? hd, Option.bind_some, slice?_dropWhile _ hd, hitem]
        cases hk : Tag.isKeyChar c with
        | false =>
          -- a stray character is one byte, so that the next place is a character again
          have hc : c.toNat < 128 := narrow_keyEnd c ((Bool.not_eq_false' _).mp hk)
          simp only [List.dropWhile_cons, hk, Bool.false_eq_true, if_false, if_true,
            offset_cons hd hc]
          rfl
        | true =>
          have hne : offset t ((c :: u).dropWhile Tag.isKeyChar) ≠ offset t (c :: u) := by
            have hadd := offset_takeWhile Tag.isKeyChar hd
            have hpos : 0 < width ((c :: u).takeWhile Tag.isKeyChar) :=
              width_pos (by simp [hk])
            omega
          rw [if_neg hne, if_pos rfl, keyed_offset _ hrest]

theorem rest_item {c : Char} {u : List Char} (h : s <:+ t) (hu : s.dropWhile isBlank = c :: u) :
    (Tag.item (c :: u)).rest <:+ t ∧ (Tag.item (c :: u)).rest.length < s.length := by
  have hsuf : c :: u <:+ s := hu ▸ List.dropWhile_suffix _
  have hle := hsuf.length_le
  have hlt := Tag.length_item_lt (c := c) (s := u)
  rw [List.length_cons] at hle
  exact ⟨((Tag.suffix_item _).trans hsuf).trans h, by omega⟩

theorem attributesIn_offset (acc : Attributes) (h : s <:+ t) {n : Nat} (hn : s.length < n) :
    attributesIn t n acc (offset t s) =
      some ((Tag.rest? acc s).map fun p => (p.1, p.2.1, offset t p.2.2)) := by
  induction n generalizing acc s with
  | zero => omega
  | succ n ih =>
    rw [attributesIn, item_offset h, Tag.rest?_eq acc rfl]
    cases hs : s.dropWhile isBlank with
    | nil => rfl
    | cons c u =>
      obtain ⟨hsuf, hlt⟩ := rest_item h hs
      cases hi : Tag.item (c :: u) with
      | broken => rfl
      | close b r => rfl
      | stray r | bare k r | valued k v r =>
        rw [hi] at hsuf hlt
        exact ih _ hsuf (Nat.lt_of_lt_of_le hlt (Nat.lt_succ_iff.1 hn))

theorem tag_offset {u : List Char} (h : '<' :: u <:+ t) :
    tag t (offset t ('<' :: u)) =
      some ((Tag.read? ('<' :: u)).map fun p => (p.1, offset t p.2)) := by
  have hu : u <:+ t := (List.suffix_cons _ u).trans h
  rw [tag, offset_cons h (by decide), narrow_isNameStart.bytewise.any_charAt? hu]
  cases u with
  | nil => rfl
  | cons c u =>
    rw [List.head?_cons, Option.any_some]
    cases hc : Tag.isNameStart c with
    | false =>
      simp only [Tag.read?, hc]
      rfl
    | true =>
      have hd := (List.dropWhile_suffix (l := c :: u) Tag.isNameChar).trans hu
      simp only [Tag.read?, hc, if_true, bind, narrow_isNameChar.bytewise.skip? hu,
        Option.bind_some, slice?_dropWhile _ hu, attributesIn_offset _ hd (length_lt_turns hd)]
      cases Tag.rest? (.ofList []) ((c :: u).dropWhile Tag.isNameChar) <;> rfl

end Scanner

end Markup

end BlockLens
