import BlockLens.Proofs.Markup.RoundTrip

set_option autoImplicit false

namespace BlockLens

open Text

namespace Markup

theorem prefix_append_cases {v s t : List Char} (h : v <+: s ++ t) :
    v <+: s ∨ ∃ w, w ≠ [] ∧ w <+: t ∧ v = s ++ w := by
  obtain ⟨u, hu⟩ := h
  rcases List.append_eq_append_iff.1 hu with ⟨w, hs, -⟩ | ⟨w, hv, ht⟩
  · exact .inl ⟨w, hs.symm⟩
  · cases w with
    | nil => exact .inl (by simp [hv])
    | cons c w => exact .inr ⟨c :: w, List.cons_ne_nil c w, ⟨u, ht.symm⟩, hv⟩

theorem content?_unfinished {name s v : List Char} (hname : '<' ∉ name)
    (hs : contains ('<' :: '/' :: name) s = false) (hv : v <+: s ++ '<' :: '/' :: name)
    (nested : Bool) (d : Nat) : content? name nested d v = none := by
  rw [content?_of_cut?]
  cases hcut : cut? ('<' :: '/' :: name) v with
  | none => rfl
  | some p =>
    obtain ⟨body, t⟩ := p
    obtain ⟨u, hu⟩ := hv
    have hwhole : cut? ('<' :: '/' :: name) (s ++ '<' :: '/' :: name) = some (s, []) := by
      have hfirst : '<' ∉ '/' :: name := by simpa using hname
      have hnone : cut? ('<' :: '/' :: name) s = none := by simpa [contains] using hs
      simpa using cut?_append hfirst hnone []
    rw [← hu, cut?_extend hcut u, Option.some.injEq, Prod.mk.injEq, List.append_eq_nil_iff] at hwhole
    rw [Option.bind_some, hwhole.2.1]
    rfl

/-- With `n` inner templates open or more, no part of `t` comes to the end. -/
def Unclosed (n : Nat) (t : List Char) : Prop :=
  ∀ d, n ≤ d → ∀ v, v <+: t → content? template true d v = none

theorem content?_of_contains {v : List Char} (h : contains ('<' :: '/' :: template) v = false)
    (d : Nat) : content? template true d v = none := by
  have hcut : cut? ('<' :: '/' :: template) v = none := by simpa [contains] using h
  rw [content?_of_cut?, hcut]
  rfl

theorem unclosed_end : Unclosed 0 ('<' :: '/' :: template) := by
  intro d _ v hv
  exact content?_unfinished (s := []) (by decide) (by decide) hv true d

theorem Unclosed.free {n : Nat} {s t : List Char} (h : Unclosed n t) (hs : Free s) (ht : Starts t) :
    Unclosed n (s ++ t) := by
  intro d hd v hv
  rcases prefix_append_cases hv with hv | ⟨w, hne, hw, rfl⟩
  · exact content?_of_contains (contains_of_part hv hs.2) d
  · have hstart : Starts w := by
      obtain ⟨u, rfl⟩ := ht
      obtain ⟨c, x, rfl⟩ := List.exists_cons_of_ne_nil hne
      rw [(List.cons_prefix_cons.1 hw).1]
      exact ⟨x, rfl⟩
    rw [content?_free hs hstart, h d hd w hw]
    rfl

theorem Unclosed.tag {n : Nat} {g : Opening} {t : List Char}
    (h : Unclosed (n + if g.closes then 0 else 1) t) (hg : g.Free) :
    Unclosed n (g.text template ++ t) := by
  intro d hd v hv
  rcases prefix_append_cases hv with hv | ⟨w, -, hw, rfl⟩
  · have hcut := cut?_of_avoids (avoids_text hg [])
    rw [List.append_nil] at hcut
    have hnone : contains ('<' :: '/' :: template) (g.text template) = false := by
      rw [contains, hcut]
      rfl
    exact content?_of_contains (contains_of_part hv hnone) d
  · rw [content?_tag hg, h _ (Nat.add_le_add_right hd _) w hw]
    rfl

theorem Unclosed.endTag {n : Nat} {t : List Char} (h : Unclosed n t) :
    Unclosed (n + 1) (endTag template ++ t) := by
  intro d hd v hv
  have hsplit : Markup.endTag template ++ t = '<' :: '/' :: template ++ '>' :: t := by
    simp [Markup.endTag]
  rw [hsplit] at hv
  rcases prefix_append_cases hv with hv | ⟨w, hne, hw, rfl⟩
  · exact unclosed_end d (Nat.zero_le d) v hv
  · obtain ⟨c, x, rfl⟩ := List.exists_cons_of_ne_nil hne
    obtain ⟨rfl, hx⟩ := List.cons_prefix_cons.1 hw
    obtain ⟨e, rfl⟩ : ∃ e, d = e + 1 := ⟨d - 1, by omega⟩
    have hsplit' : '<' :: '/' :: template ++ '>' :: x = Markup.endTag template ++ x := by
      simp [Markup.endTag]
    rw [hsplit', content?_endTag]
    simp only [h e (by omega) x hx, Option.map_none]

theorem Unclosed.print {n : Nat} {c : Content} {t : List Char} (h : Unclosed n t) (hc : c.Proper)
    (ht : Starts t) : Unclosed n (c.print ++ t) := by
  induction c generalizing n t with
  | text s => exact h.free hc ht
  | element s tag inner rest ihi ihr =>
    obtain ⟨hs, hcl, hg, hi, hr⟩ := hc
    have hinner : Unclosed (n + 1) (inner.print ++ (Markup.endTag template ++ (rest.print ++ t))) :=
      ihi (ihr h hr ht).endTag hi (starts_endTag _ _)
    have htag := Unclosed.tag (n := n) (g := tag) (by simpa [hcl] using hinner) hg
    simpa only [Content.print, List.append_assoc] using htag.free hs (starts_text _ _)
  | void s tag rest ihr =>
    obtain ⟨hs, hcl, hg, hr⟩ := hc
    have htag := Unclosed.tag (n := n) (g := tag) (by simpa [hcl] using ihr h hr ht) hg
    simpa only [Content.print, List.append_assoc] using htag.free hs (starts_text _ _)

theorem content?_eq_none_of_part {name : List Char} (hname : '<' ∉ name) {body : Body}
    (hproper : body.Proper name false) {v : List Char} (hv : v <+: body.text name)
    (hlt : v.length < (body.text name).length) :
    content? name (String.ofList name == "template") 0 v = none := by
  -- without the last character of the end tag
  have shorter : ∀ {s : List Char}, v <+: s ++ endTag name → v.length < (s ++ endTag name).length →
      v <+: s ++ '<' :: '/' :: name := by
    intro s hv hlt
    have hsplit : s ++ endTag name = s ++ '<' :: '/' :: name ++ ['>'] := by simp [endTag]
    rw [hsplit] at hv hlt
    rw [List.length_append, List.length_singleton] at hlt
    exact List.prefix_of_prefix_length_le hv (List.prefix_append _ _) (by omega)
  rw [beq_template]
  cases body with
  | void => exact absurd hproper Bool.false_ne_true
  | raw s => exact content?_unfinished hname hproper.2.2 (shorter hv hlt) _ 0
  | nested c =>
    obtain ⟨-, rfl, hc⟩ := hproper
    rw [decide_eq_true rfl]
    exact unclosed_end.print hc ⟨_, rfl⟩ 0 (Nat.le_refl 0) v (shorter hv hlt)

namespace Element

/-- Of a block that breaks off behind its tag, the whole is reported. -/
theorem splitAt_take_of_le (e : Element) {k : Nat} (hk : e.opening.length ≤ k)
    (hlt : k < e.text.length) (o : Nat) :
    splitAt o (e.text.take k) =
      { errors := [⟨s!"Element <{e.tag.name}> is missing end tag.",
          ⟨o, o + width (e.text.take k)⟩⟩] } := by
  obtain ⟨j, rfl⟩ := Nat.exists_eq_add_of_le hk
  have hproper := e.proper
  have hopen : e.tag.selfClosing = false := by
    cases hcl : e.tag.selfClosing with
    | false => rfl
    | true =>
      rw [hcl] at hproper
      rw [text, hproper.eq_void, Body.text, List.append_nil] at hlt
      omega
  rw [hopen] at hproper
  have htake : e.text.take (e.opening.length + j) =
      e.opening ++ (e.body.text e.tag.name.toList).take j := by
    rw [text, List.take_length_add_append]
  have hshort : ((e.body.text e.tag.name.toList).take j).length <
      (e.body.text e.tag.name.toList).length := by
    rw [text, List.length_append] at hlt
    rw [List.length_take]
    omega
  have hpart := List.take_prefix j (e.body.text e.tag.name.toList)
  have hnone := content?_eq_none_of_part e.not_mem_name hproper hpart hshort
  rw [String.ofList_toList] at hnone
  rw [htake, splitAt_read (e.read?_opening _)]
  simp only [hopen, hnone, Bool.false_eq_true, if_false]

/-- Of a block that breaks off in its tag, all but the first sign is split as any text. -/
theorem splitAt_take_of_lt (e : Element) {k : Nat} (hk : k < e.opening.length) (o : Nat) :
    splitAt o (e.text.take k) = splitAt (o + 1) (e.opening.take k).tail := by
  have htake : e.text.take k = e.opening.take k := by
    rw [text, List.take_append_of_le_length (Nat.le_of_lt hk)]
  have hpart := List.take_prefix k e.opening
  have hnone : Tag.read? (e.opening.take k) = none :=
    Tag.read?_eq_none_of_part e.reads hpart (by rw [List.length_take]; omega)
  obtain ⟨c, t, hs, hc⟩ := exists_of_read? e.reads
  rw [htake]
  rw [hs] at hnone ⊢
  cases k with
  | zero => simp [splitAt]
  | succ j =>
    rw [List.take_succ_cons] at hnone ⊢
    -- the letter, if it is there, begins neither a comment nor an end tag
    have hletter : ∀ d u, (c :: t).take j = d :: u → Tag.isNameStart d = true := by
      intro d u hd
      cases j with
      | zero => simp at hd
      | succ i =>
        rw [List.take_succ_cons, List.cons.injEq] at hd
        rw [← hd.1, hc]
    rw [splitAt_other o (fun u _ hu => absurd (hletter _ _ hu) (by decide))
      (fun u _ hu => absurd (hletter _ _ hu) (by decide)), hnone]
    rfl

end Element

structure Passage where
  gaps : List Gap
  element : Element

namespace Passage

def text (p : Passage) : List Char := p.gaps.flatMap Gap.text ++ p.element.text

def blocks : Nat → List Passage → List Block
  | _, [] => []
  | o, p :: ps => p.element.block (o + width (p.gaps.flatMap Gap.text)) :: blocks (o + width p.text) ps

theorem length_blocks (o : Nat) (ps : List Passage) : (blocks o ps).length = ps.length := by
  induction ps generalizing o with
  | nil => rfl
  | cons p ps ih => simp [blocks, ih]

end Passage

def Parsed.prepend (bs : List Block) (p : Parsed) : Parsed := { p with blocks := bs ++ p.blocks }

theorem splitAt_gaps (gs : List Gap) (o : Nat) (t : List Char) :
    splitAt o (gs.flatMap Gap.text ++ t) = splitAt (o + width (gs.flatMap Gap.text)) t := by
  induction gs generalizing o with
  | nil => rfl
  | cons g gs ih =>
    rw [List.flatMap_cons, List.append_assoc, splitAt_gap, ih, width_append, Nat.add_assoc]

theorem splitAt_passages (ps : List Passage) (o : Nat) (t : List Char) :
    splitAt o (ps.flatMap Passage.text ++ t) =
      Parsed.prepend (Passage.blocks o ps) (splitAt (o + width (ps.flatMap Passage.text)) t) := by
  induction ps generalizing o with
  | nil => rfl
  | cons p ps ih =>
    have hsplit : (p :: ps).flatMap Passage.text ++ t =
        p.gaps.flatMap Gap.text ++ (p.element.text ++ (ps.flatMap Passage.text ++ t)) := by
      simp [Passage.text]
    rw [hsplit, splitAt_gaps, p.element.splitAt_text, ih]
    simp [Passage.blocks, Passage.text, Parsed.prepend, Parsed.cons, Nat.add_assoc]

/-- A text of blocks, of which one is looked at; what comes behind it is left open. -/
structure Page where
  before : List Passage
  gaps : List Gap
  element : Element
  after : List Char

namespace Page

variable (p : Page)

def front : List Char := p.before.flatMap Passage.text ++ p.gaps.flatMap Gap.text

def chars : List Char := p.front ++ (p.element.text ++ p.after)

def text : String := String.ofList p.chars

def cut (k : Nat) : String := String.ofList (p.chars.take (p.front.length + k))

def torn (k : Nat) : String := String.ofList (p.element.opening.take k).tail

def offset : Nat := width p.front

def found : List Block := Passage.blocks 0 p.before

def block : Block := p.element.block p.offset

def missingEnd (k : Nat) : ParseError where
  message := s!"Element <{p.element.tag.name}> is missing end tag."
  span := ⟨p.offset, p.offset + width (p.element.text.take k)⟩

variable {p}

theorem splitAt_front (t : List Char) :
    splitAt 0 (p.front ++ t) = Parsed.prepend p.found (splitAt p.offset t) := by
  rw [front, List.append_assoc, splitAt_passages, splitAt_gaps, offset, front, width_append,
    Nat.zero_add]
  rfl

theorem split_text :
    split p.text =
      Parsed.prepend (p.found ++ [p.block]) (splitAt (p.offset + width p.element.text) p.after) := by
  rw [split, text, String.toList_ofList, chars, splitAt_front, p.element.splitAt_text]
  simp [Parsed.prepend, Parsed.cons, block]

theorem split_cut {k : Nat} (hk : k ≤ p.element.text.length) :
    split (p.cut k) = Parsed.prepend p.found (splitAt p.offset (p.element.text.take k)) := by
  rw [split, cut, String.toList_ofList, chars, List.take_length_add_append,
    List.take_append_of_le_length hk, splitAt_front]

theorem split_cut_of_le {k : Nat} (hk : p.element.opening.length ≤ k)
    (hlt : k < p.element.text.length) : split (p.cut k) = ⟨p.found, [p.missingEnd k]⟩ := by
  rw [split_cut (Nat.le_of_lt hlt), p.element.splitAt_take_of_le hk hlt]
  simp [Parsed.prepend, missingEnd]

theorem split_cut_of_lt {k : Nat} (hk : k < p.element.opening.length) :
    split (p.cut k) = Parsed.prepend p.found ((split (p.torn k)).moved (p.offset + 1)) := by
  have hle : k ≤ p.element.text.length := by
    rw [Element.text, List.length_append]
    omega
  have hmove := splitAt_add 0 (p.offset + 1) (p.element.opening.take k).tail
  rw [Nat.zero_add] at hmove
  rw [split_cut hle, p.element.splitAt_take_of_lt hk, hmove, split, torn, String.toList_ofList]

theorem errors_cut {k : Nat} (hk : k < p.element.text.length) :
    (split (p.cut k)).errors = [] ↔
      k < p.element.opening.length ∧ (split (p.torn k)).errors = [] := by
  rcases Nat.lt_or_ge k p.element.opening.length with hlt | hge
  · simp [split_cut_of_lt hlt, Parsed.prepend, Parsed.moved, hlt]
  · simp [split_cut_of_le hge hk, Nat.not_lt.2 hge]

/-- With no further sign in what is left of the tag, the block is gone and nothing is reported. -/
theorem split_cut_of_not_mem {k : Nat} (hk : k < p.element.opening.length)
    (hfree : '<' ∉ (p.torn k).toList) : split (p.cut k) = ⟨p.found, []⟩ := by
  have hplain : split (p.torn k) = {} := by
    have h := splitAt_plain hfree 0 []
    rw [List.append_nil, splitAt] at h
    exact h
  rw [split_cut_of_lt hk, hplain]
  simp [Parsed.prepend, Parsed.moved]

end Page

end Markup

end BlockLens
