import BlockLens.Proofs.Markup

set_option autoImplicit false

namespace BlockLens

theorem Attributes.get?_ofList (l : List (String × String)) (k : String) :
    (ofList l).get? k = l.reverse.lookup k := by
  have hfold : ∀ acc : Attributes, (l.foldl (fun a p => a.insert p.1 p.2) acc).get? k =
      (l.reverse.lookup k).or (acc.get? k) := by
    induction l with
    | nil => simp
    | cons p l ih =>
      intro acc
      rw [List.foldl_cons, ih, get?_insert, List.reverse_cons, List.lookup_append, Option.or_assoc]
      obtain ⟨j, v⟩ := p
      by_cases hk : k = j
      · simp [hk]
      · have hb : (k == j) = false := by simpa using hk
        simp [List.lookup_cons, hk, hb]
  rw [ofList, hfold]
  exact Option.or_none

namespace Markup

open Text

inductive Spelling where
  | bare
  | quoted (mark : Char) (value : List Char)
  | plain (value : List Char)

namespace Spelling

def text : Spelling → List Char
  | .bare => []
  | .quoted q v => '=' :: q :: v ++ [q]
  | .plain v => '=' :: v

def value : Spelling → List Char
  | .bare => "true".toList
  | .quoted _ v | .plain v => v

def Proper : Spelling → Prop
  | .bare => True
  | .quoted q v => Tag.isQuote q = true ∧ q ∉ v
  | .plain v => (∀ c ∈ v, Tag.isValueChar c = true) ∧ ∃ c r, v = c :: r ∧ Tag.isQuote c = false

end Spelling

structure Attribute where
  gap : List Char
  key : List Char
  spelling : Spelling
  gap_ne : gap ≠ []
  gap_blank : ∀ c ∈ gap, isBlank c = true
  key_ne : key ≠ []
  key_chars : ∀ c ∈ key, Tag.isKeyChar c = true
  proper : spelling.Proper

namespace Attribute

def text (a : Attribute) : List Char := a.gap ++ (a.key ++ a.spelling.text)

def pair (a : Attribute) : String × String := (String.ofList a.key, String.ofList a.spelling.value)

end Attribute

structure Opening where
  attributes : List Attribute
  trail : List Char
  closes : Bool
  trail_blank : ∀ c ∈ trail, isBlank c = true
  /-- A slash would else belong to what stands before it. -/
  trail_ne : closes = true → trail ≠ []

namespace Opening

def ending (closes : Bool) : List Char := if closes then ['/', '>'] else ['>']

def tail (g : Opening) (as : List Attribute) : List Char :=
  as.flatMap Attribute.text ++ (g.trail ++ ending g.closes)

def text (name : List Char) (g : Opening) : List Char := '<' :: name ++ g.tail g.attributes

def bag (g : Opening) : Attributes := .ofList (g.attributes.map Attribute.pair)

end Opening

def Breaks (t : List Char) : Prop := ∃ c, t.head? = some c ∧ (isBlank c = true ∨ c = '>')

theorem Opening.breaks_tail (g : Opening) (as : List Attribute) (r : List Char) :
    Breaks (g.tail as ++ r) := by
  cases as with
  | cons a as =>
    obtain ⟨c, u, hu⟩ := List.exists_cons_of_ne_nil a.gap_ne
    have hc := a.gap_blank c (by simp [hu])
    exact ⟨c, by simp [tail, Attribute.text, hu], .inl hc⟩
  | nil =>
    cases ht : g.trail with
    | cons c u =>
      have hc := g.trail_blank c (by simp [ht])
      exact ⟨c, by simp [tail, ht], .inl hc⟩
    | nil =>
      cases hc : g.closes with
      | true => exact absurd ht (g.trail_ne hc)
      | false => exact ⟨'>', by simp [tail, ht, ending, hc], .inr rfl⟩

theorem Breaks.head {t : List Char} (h : Breaks t) {p : Char → Bool}
    (hp : ∀ c, isBlank c = true ∨ c = '>' → p c = false) : ∀ c ∈ t.head?, p c = false := by
  obtain ⟨d, ht, hd⟩ := h
  intro c hc
  obtain rfl : d = c := Option.some.inj (ht.symm.trans hc)
  exact hp d hd

theorem takeWhile_append {p : Char → Bool} {u t : List Char} (hu : ∀ c ∈ u, p c = true)
    (ht : ∀ c ∈ t.head?, p c = false) : (u ++ t).takeWhile p = u ∧ (u ++ t).dropWhile p = t := by
  rw [List.takeWhile_append_of_pos hu, List.dropWhile_append_of_pos hu]
  cases t with
  | nil => simp
  | cons c t =>
    have hc : p c = false := ht c rfl
    simp [hc]

theorem isKeyChar_of_breaks (c : Char) (h : isBlank c = true ∨ c = '>') :
    Tag.isKeyChar c = false := by
  rcases h with h | rfl
  · simp [Tag.isKeyChar, h]
  · rfl

theorem isValueChar_of_breaks (c : Char) (h : isBlank c = true ∨ c = '>') :
    Tag.isValueChar c = false := by
  rcases h with h | rfl
  · simp [Tag.isValueChar, h]
  · rfl

theorem isNameChar_of_breaks (c : Char) (h : isBlank c = true ∨ c = '>') :
    Tag.isNameChar c = false := by
  rcases h with h | rfl
  · simp only [isBlank, Bool.or_eq_true, beq_iff_eq] at h
    rcases h with (((rfl | rfl) | rfl) | rfl) | rfl <;> rfl
  · rfl

theorem isBlank_of_isQuote {q : Char} (h : Tag.isQuote q = true) : isBlank q = false := by
  simp only [Tag.isQuote, Bool.or_eq_true, beq_iff_eq] at h
  rcases h with rfl | rfl <;> rfl

theorem isKeyChar_of_isQuote {q : Char} (h : Tag.isQuote q = true) : Tag.isKeyChar q = true := by
  simp only [Tag.isQuote, Bool.or_eq_true, beq_iff_eq] at h
  rcases h with rfl | rfl <;> rfl

theorem isBlank_of_isKeyChar {c : Char} (h : Tag.isKeyChar c = true) : isBlank c = false := by
  simp only [Tag.isKeyChar, Bool.not_eq_true', Bool.or_eq_false_iff] at h
  exact h.1.1.1

theorem isBlank_of_isValueChar {c : Char} (h : Tag.isValueChar c = true) : isBlank c = false := by
  simp only [Tag.isValueChar, Bool.not_eq_true', Bool.or_eq_false_iff] at h
  exact h.1

theorem cut?_singleton {q : Char} {v : List Char} (hv : q ∉ v) (t : List Char) :
    cut? [q] (v ++ q :: t) = some (v, t) := by
  induction v with
  | nil => simp [cut?, after?]
  | cons c v ih =>
    simp only [List.mem_cons, not_or] at hv
    have ha : after? [q] (c :: (v ++ q :: t)) = none := by simp [after?, hv.1]
    simp [cut?, ha, ih hv.2]

theorem value?_spelling {q : Char} {v t : List Char} (hq : Tag.isQuote q = true) (hv : q ∉ v) :
    Tag.value? (q :: v ++ q :: t) = some (v, t) := by
  simp only [List.cons_append, Tag.value?, hq, if_true, cut?_singleton hv]

theorem value?_plain {c : Char} {v t : List Char} (hc : Tag.isQuote c = false)
    (hv : ∀ d ∈ c :: v, Tag.isValueChar d = true) (ht : Breaks t) :
    Tag.value? (c :: v ++ t) = some (c :: v, t) := by
  obtain ⟨h₁, h₂⟩ := takeWhile_append hv (ht.head isValueChar_of_breaks)
  rw [List.cons_append] at h₁ h₂ ⊢
  simp only [Tag.value?, hc, Bool.false_eq_true, if_false, h₁, h₂]

theorem keyed_spelling {s : Spelling} (hs : s.Proper) (key : List Char) {t : List Char}
    (ht : Breaks t) (he : ∀ r, t.dropWhile isBlank ≠ '=' :: r) :
    Tag.keyed key (s.text ++ t) = .bare key t ∧ s.value = "true".toList ∨
      Tag.keyed key (s.text ++ t) = .valued key s.value t := by
  have heq : ∀ u : List Char, ('=' :: u).dropWhile isBlank = '=' :: u := fun u => by
    simp [show isBlank '=' = false from rfl]
  cases s with
  | bare =>
    left
    simp only [Spelling.text, List.nil_append, Tag.keyed, Spelling.value, and_true]
  | quoted q v =>
    right
    obtain ⟨hq, hv⟩ := hs
    have hd : (q :: v ++ q :: t).dropWhile isBlank = q :: v ++ q :: t := by
      simp [isBlank_of_isQuote hq]
    have htext : (Spelling.quoted q v).text ++ t = '=' :: (q :: v ++ q :: t) := by
      simp [Spelling.text]
    simp only [htext, Tag.keyed, heq, hd, value?_spelling hq hv, Spelling.value]
  | plain v =>
    right
    obtain ⟨hv, c, r, rfl, hc⟩ := hs
    have hd : (c :: r ++ t).dropWhile isBlank = c :: r ++ t := by
      simp [isBlank_of_isValueChar (hv c (by simp))]
    have htext : (Spelling.plain (c :: r)).text ++ t = '=' :: (c :: r ++ t) := rfl
    simp only [htext, Tag.keyed, heq, hd, value?_plain hc hv ht, Spelling.value]

theorem item_of_isKeyChar {c : Char} (h : Tag.isKeyChar c = true) (s : List Char) :
    Tag.item (c :: s) =
      Tag.keyed ((c :: s).takeWhile Tag.isKeyChar) ((c :: s).dropWhile Tag.isKeyChar) := by
  have hgt : c ≠ '>' := by
    rintro rfl
    contradiction
  have hslash : c ≠ '/' := by
    rintro rfl
    contradiction
  rw [Tag.item_other hgt (absurd · hslash), if_pos h]

theorem rest?_attribute (acc : Attributes) (a : Attribute) {t : List Char} (ht : Breaks t)
    (he : ∀ r, t.dropWhile isBlank ≠ '=' :: r) :
    Tag.rest? acc (a.text ++ t) = Tag.rest? (acc.insert a.pair.1 a.pair.2) t := by
  obtain ⟨c, k, hkey⟩ := List.exists_cons_of_ne_nil a.key_ne
  have hkc : Tag.isKeyChar c = true := a.key_chars c (by simp [hkey])
  have hstop : ∀ d ∈ (a.spelling.text ++ t).head?, Tag.isKeyChar d = false := by
    cases hs : a.spelling with
    | bare => simpa [Spelling.text] using ht.head isKeyChar_of_breaks
    | quoted q v => simp [Spelling.text, Tag.isKeyChar]
    | plain v => simp [Spelling.text, Tag.isKeyChar]
  obtain ⟨htake, hdrop⟩ := takeWhile_append a.key_chars hstop
  have hskip : (a.text ++ t).dropWhile isBlank = a.key ++ (a.spelling.text ++ t) := by
    have h := (takeWhile_append (t := a.key ++ (a.spelling.text ++ t)) a.gap_blank
      (by simp [hkey, isBlank_of_isKeyChar hkc])).2
    simpa only [Attribute.text, List.append_assoc] using h
  have hitem : Tag.item (a.key ++ (a.spelling.text ++ t)) =
      Tag.keyed a.key (a.spelling.text ++ t) := by
    rw [hkey] at htake hdrop ⊢
    rw [List.cons_append] at htake hdrop ⊢
    rw [item_of_isKeyChar hkc, htake, hdrop]
  rw [Tag.rest?_eq acc hskip, hitem]
  rcases keyed_spelling a.proper a.key ht he with ⟨h, hv⟩ | h
  · simp [h, Attribute.pair, hv]
  · simp [h, Attribute.pair]

theorem Opening.dropWhile_tail_nil (g : Opening) (r : List Char) :
    (g.tail [] ++ r).dropWhile isBlank = ending g.closes ++ r := by
  have hsplit : g.tail [] ++ r = g.trail ++ (ending g.closes ++ r) := by simp [tail]
  rw [hsplit, List.dropWhile_append_of_pos g.trail_blank]
  cases g.closes <;> rfl

theorem Opening.dropWhile_tail (g : Opening) (as : List Attribute) (r t : List Char) :
    (g.tail as ++ r).dropWhile isBlank ≠ '=' :: t := by
  cases as with
  | cons a as =>
    obtain ⟨c, k, hkey⟩ := List.exists_cons_of_ne_nil a.key_ne
    have hkc : Tag.isKeyChar c = true := a.key_chars c (by simp [hkey])
    have h : (g.tail (a :: as) ++ r).dropWhile isBlank =
        c :: (k ++ a.spelling.text ++ g.tail as ++ r) := by
      simp [tail, Attribute.text, hkey, List.dropWhile_append_of_pos a.gap_blank,
        isBlank_of_isKeyChar hkc]
    rw [h]
    rintro e
    exact absurd hkc (by simp [(List.cons.inj e).1, Tag.isKeyChar])
  | nil =>
    rw [g.dropWhile_tail_nil]
    cases g.closes <;> simp [ending]

theorem Opening.rest?_tail (g : Opening) (as : List Attribute) (acc : Attributes) (r : List Char) :
    Tag.rest? acc (g.tail as ++ r) =
      some ((as.map Attribute.pair).foldl (fun a p => a.insert p.1 p.2) acc, g.closes, r) := by
  induction as generalizing acc with
  | nil =>
    rw [Tag.rest?_eq acc (g.dropWhile_tail_nil r)]
    cases g.closes <;> rfl
  | cons a as ih =>
    have hsplit : g.tail (a :: as) ++ r = a.text ++ (g.tail as ++ r) := by simp [tail]
    rw [hsplit, rest?_attribute acc a (g.breaks_tail as r) (g.dropWhile_tail as r), ih]
    rfl

def IsName (name : List Char) : Prop :=
  (∃ c s, name = c :: s ∧ Tag.isNameStart c = true) ∧
    ∀ c ∈ name, Tag.isNameChar c = true ∧ c.isUpper = false

theorem isName_of_all {name : List Char} (hfirst : name.head?.any Tag.isNameStart = true)
    (hall : name.all (fun c => Tag.isNameChar c && !c.isUpper) = true) : IsName name := by
  refine ⟨?_, fun c hc => by simpa using List.all_eq_true.1 hall c hc⟩
  cases name with
  | nil => contradiction
  | cons c s => exact ⟨c, s, rfl, hfirst⟩

theorem map_toLower {name : List Char} (h : IsName name) : name.map Char.toLower = name := by
  have hid : name.map Char.toLower = name.map id :=
    List.map_congr_left fun c hc => toLower_of_not_isUpper (h.2 c hc).2
  rw [hid, List.map_id]

/-- The reader takes a written tag off the front of any text. -/
theorem read?_text {name : List Char} (h : IsName name) (g : Opening) (r : List Char) :
    Tag.read? (g.text name ++ r) = some (⟨String.ofList name, g.bag, g.closes⟩, r) := by
  obtain ⟨c, s, hname, hc⟩ := h.1
  obtain ⟨htake, hdrop⟩ := takeWhile_append (fun d hd => (h.2 d hd).1)
    ((g.breaks_tail g.attributes r).head isNameChar_of_breaks)
  have hsplit : g.text name ++ r = '<' :: (name ++ (g.tail g.attributes ++ r)) := by
    simp [Opening.text]
  rw [hsplit]
  have hlower := map_toLower h
  rw [hname, List.cons_append] at htake hdrop ⊢
  rw [hname] at hlower
  simp only [Tag.read?, hc, if_true, htake, hdrop, hlower, g.rest?_tail, Option.map_some]
  rfl

end Markup

end BlockLens
