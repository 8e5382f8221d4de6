import BlockLens.Proofs.Markup.Nesting
import BlockLens.Proofs.Markup.Stable
/-!
Splitting undoes printing. A block that was written is found again behind text without tags or a
comment, and what follows it is split as if it stood alone.
-/

set_option autoImplicit false

namespace BlockLens

open Text

def Span.moved (n : Nat) (s : Span) : Span := ⟨s.start + n, s.stop + n⟩

def Block.moved (n : Nat) (b : Block) : Block := { b with span := b.span.moved n }

def ParseError.moved (n : Nat) (e : ParseError) : ParseError := { e with span := e.span.moved n }

def Parsed.moved (n : Nat) (p : Parsed) : Parsed :=
  ⟨p.blocks.map (Block.moved n), p.errors.map (ParseError.moved n)⟩

namespace Markup

theorem block_add (tag : Tag) (start n : Nat) (body : List Char) :
    block tag (start + n) body = (block tag start body).moved n := by
  simp [block, Block.moved, Span.moved, Nat.add_right_comm]

theorem cons_moved (b : Block) (n : Nat) (p : Parsed) :
    (Parsed.cons b p).moved n = Parsed.cons (b.moved n) (p.moved n) := rfl

/-- The splitter finds the same wherever its text stands. -/
theorem splitAt_add (o n : Nat) (s : List Char) : splitAt (o + n) s = (splitAt o s).moved n := by
  fun_induction splitAt o s with
  | case1 o =>
    rw [splitAt]
    rfl
  | case2 o t c r hcut ih =>
    rw [splitAt_comment, hcut, ← ih]
    simp only [Nat.add_right_comm _ n]
  | case3 o t hcut =>
    rw [splitAt_comment, hcut]
    simp only [Nat.add_right_comm _ n]
    rfl
  | case4 o t c r hcut ih =>
    rw [splitAt_endTag, hcut, ← ih]
    simp only [Nat.add_right_comm _ n]
  | case5 o t hcut =>
    rw [splitAt_endTag, hcut]
    rfl
  | case6 o c t hc he hr ih =>
    rw [splitAt_other _ hc he, hr, ← ih]
    simp only [Nat.add_right_comm _ n]
  | case7 o c t hc he tag r hr start hself ih =>
    rw [splitAt_other _ hc he, hr, cons_moved, ← block_add, ← ih]
    simp only [hself, if_true, Nat.add_right_comm _ n, start]
  | case8 o c t hc he tag r hr start hself body r' hb ih =>
    rw [splitAt_other _ hc he, hr, cons_moved, ← block_add, ← ih]
    simp only [hself, hb, Bool.false_eq_true, if_false, Nat.add_right_comm _ n, start]
  | case9 o c t hc he tag r hr hself hb =>
    rw [splitAt_other _ hc he, hr]
    simp only [hself, hb, Bool.false_eq_true, if_false, Nat.add_right_comm _ n]
    rfl

inductive Gap where
  | plain (s : List Char) (free : '<' ∉ s)
  | comment (s : List Char) (free : contains ['-', '-', '>'] s = false)

def Gap.text : Gap → List Char
  | .plain s _ => s
  | .comment s _ => '<' :: '!' :: '-' :: '-' :: s ++ ['-', '-', '>']

theorem splitAt_plain {s : List Char} (hs : '<' ∉ s) (o : Nat) (t : List Char) :
    splitAt o (s ++ t) = splitAt (o + width s) t := by
  induction s generalizing o with
  | nil => simp [width]
  | cons c s ih =>
    simp only [List.mem_cons, not_or] at hs
    have hne : c ≠ '<' := Ne.symm hs.1
    have hread : Tag.read? (c :: (s ++ t)) = none := by
      unfold Tag.read?
      split
      · next h => exact absurd (List.cons.inj h).1 hne
      · rfl
    rw [List.cons_append, splitAt_other o (fun _ h _ => hne h) (fun _ h _ => hne h), hread]
    simp only [ih hs.2, width, Nat.add_assoc]

/-- The last character of the word tells that no copy of it begins earlier. -/
theorem cut?_comment {s : List Char} (hs : contains ['-', '-', '>'] s = false) (t : List Char) :
    cut? ['-', '-', '>'] (s ++ '-' :: '-' :: '>' :: t) = some (s, t) := by
  induction s with
  | nil => simp [cut?, after?]
  | cons c s ih =>
    obtain ⟨ha, hrest⟩ := contains_cons_eq_false.1 hs
    have hn : after? ['-', '-', '>'] (c :: (s ++ '-' :: '-' :: '>' :: t)) = none := by
      cases s with
      | nil => simp [after?]
      | cons d s =>
        cases s with
        | nil => simp [after?]
        | cons e s => simpa [after?] using ha
    rw [List.cons_append, cut?, hn, ih hrest]
    rfl

theorem splitAt_gap (x : Gap) (o : Nat) (t : List Char) :
    splitAt o (x.text ++ t) = splitAt (o + width x.text) t := by
  cases x with
  | plain s hs => exact splitAt_plain hs o t
  | comment s hs =>
    have hsplit : (Gap.comment s hs).text ++ t =
        '<' :: '!' :: '-' :: '-' :: (s ++ '-' :: '-' :: '>' :: t) := by simp [Gap.text]
    rw [hsplit, splitAt_comment, cut?_comment hs]
    simp only [Gap.text, List.cons_append, width, width_append]
    congr 1
    simp [Char.utf8Size]
    omega

inductive Body where
  | void
  | raw (s : List Char)
  | nested (c : Content)

namespace Body

def content : Body → List Char
  | .void => []
  | .raw s => s
  | .nested c => c.print

def text (name : List Char) : Body → List Char
  | .void => []
  | .raw s => s ++ endTag name
  | .nested c => c.print ++ endTag name

def Proper (name : List Char) (closes : Bool) : Body → Prop
  | .void => closes = true
  | .raw s => closes = false ∧ name ≠ template ∧ contains ('<' :: '/' :: name) s = false
  | .nested c => closes = false ∧ name = template ∧ c.Proper

theorem Proper.eq_void {name : List Char} {b : Body} (h : b.Proper name true) : b = .void := by
  cases b with
  | void => rfl
  | raw s => exact absurd h.1.symm Bool.false_ne_true
  | nested c => exact absurd h.1.symm Bool.false_ne_true

end Body

structure Element where
  opening : List Char
  tag : Tag
  body : Body
  reads : Tag.read? opening = some (tag, [])
  proper : body.Proper tag.name.toList tag.selfClosing

namespace Element

def text (e : Element) : List Char := e.opening ++ e.body.text e.tag.name.toList

def block (e : Element) (o : Nat) : Block :=
  Markup.block e.tag (o + width e.opening) e.body.content

theorem read?_opening (e : Element) (r : List Char) :
    Tag.read? (e.opening ++ r) = some (e.tag, r) := Tag.read?_append e.reads r

theorem not_mem_name (e : Element) : '<' ∉ e.tag.name.toList :=
  Tag.not_mem_name_of_read? e.reads rfl

end Element

/-- A tag begins with the sign and a letter, so neither a comment nor an end tag is one. -/
theorem exists_of_read? {s r : List Char} {tag : Tag} (h : Tag.read? s = some (tag, r)) :
    ∃ c t, s = '<' :: c :: t ∧ Tag.isNameStart c = true := by
  unfold Tag.read? at h
  split at h
  · next c t =>
    split at h
    · next hc => exact ⟨c, t, rfl, hc⟩
    · contradiction
  · contradiction

theorem splitAt_read {s r : List Char} {tag : Tag} (h : Tag.read? s = some (tag, r)) (o : Nat) :
    splitAt o s =
      let start := o + (width s - width r)
      if tag.selfClosing then Parsed.cons (block tag start []) (splitAt start r)
      else
        match content? tag.name.toList (tag.name == "template") 0 r with
        | some (body, r') =>
          Parsed.cons (block tag start body) (splitAt (start + (width r - width r')) r')
        | none =>
          { errors := [⟨s!"Element <{tag.name}> is missing end tag.", ⟨o, o + width s⟩⟩] } := by
  obtain ⟨c, t, rfl, hc⟩ := exists_of_read? h
  have hcomment : ∀ u, '<' = '<' → c :: t = '!' :: '-' :: '-' :: u → False := by
    rintro u - hu
    rw [(List.cons.inj hu).1] at hc
    contradiction
  have hend : ∀ u, '<' = '<' → c :: t = '/' :: u → False := by
    rintro u - hu
    rw [(List.cons.inj hu).1] at hc
    contradiction
  have hsplit := splitAt_other o hcomment hend
  rw [h] at hsplit
  exact hsplit

theorem content?_raw {name s : List Char} (hname : '<' ∉ name)
    (hs : contains ('<' :: '/' :: name) s = false) (t : List Char) :
    content? name false 0 (s ++ (endTag name ++ t)) = some (s, t) := by
  have hfirst : '<' ∉ '/' :: name := by simpa using hname
  have hcut : cut? ('<' :: '/' :: name) (s ++ (endTag name ++ t)) = some (s, '>' :: t) := by
    have hnone : cut? ('<' :: '/' :: name) s = none := by simpa [contains] using hs
    simpa [endTag] using cut?_append hfirst hnone ('>' :: t)
  have hgap : cut? ['>'] ('>' :: t) = some ([], t) := by simp [cut?, after?]
  rw [content?_of_cut?, hcut]
  simp only [Option.bind_some, hgap, depthAfter, Bool.false_eq_true, if_false]

theorem beq_template (name : List Char) :
    (String.ofList name == "template") = decide (name = template) := by
  have htemplate : String.ofList template = "template" := String.ofList_toList
  by_cases h : name = template
  · simp [h, htemplate]
  · have hne : String.ofList name ≠ "template" := fun e =>
      h (String.ofList_injective (e.trans htemplate.symm))
    simp [h, hne]

theorem content?_body {name : List Char} (hname : '<' ∉ name) {body : Body}
    (hproper : body.Proper name false) (t : List Char) :
    content? name (String.ofList name == "template") 0 (body.text name ++ t) =
      some (body.content, t) := by
  rw [beq_template]
  cases body with
  | void => exact absurd hproper Bool.false_ne_true
  | raw s =>
    obtain ⟨-, hne, hs⟩ := hproper
    rw [decide_eq_false hne, Body.text, List.append_assoc, content?_raw hname hs]
    rfl
  | nested c =>
    obtain ⟨-, rfl, hc⟩ := hproper
    rw [decide_eq_true rfl, Body.text, List.append_assoc,
      content?_print hc (starts_endTag _ _), content?_endTag]
    simp [Body.content]

theorem Element.splitAt_text (e : Element) (o : Nat) (t : List Char) :
    splitAt o (e.text ++ t) = Parsed.cons (e.block o) (splitAt (o + width e.text) t) := by
  have hproper := e.proper
  have hstart : width (e.opening ++ (e.body.text e.tag.name.toList ++ t)) -
      width (e.body.text e.tag.name.toList ++ t) = width e.opening := by
    rw [width_append]
    omega
  rw [Element.text, List.append_assoc, splitAt_read (e.read?_opening _)]
  simp only [hstart]
  cases hcl : e.tag.selfClosing with
  | true =>
    rw [hcl] at hproper
    simp [hproper.eq_void, Body.text, Body.content, Element.block]
  | false =>
    rw [hcl] at hproper
    have hcontent := content?_body e.not_mem_name hproper t
    rw [String.ofList_toList] at hcontent
    have hstop : width (e.body.text e.tag.name.toList ++ t) - width t =
        width (e.body.text e.tag.name.toList) := by
      rw [width_append]
      omega
    simp only [hcontent, hstop, Bool.false_eq_true, if_false]
    rw [width_append, Nat.add_assoc]
    rfl

structure Printed where
  name : List Char
  tag : Opening
  body : Body
  isName : IsName name
  proper : body.Proper name tag.closes

namespace Printed

def text (b : Printed) : List Char := b.tag.text b.name ++ b.body.text b.name

def block (b : Printed) (o : Nat) : Block where
  kind := .ofTag (String.ofList b.name)
  lang := b.tag.bag.get? "lang"
  attrs := b.tag.bag
  span :=
    let start := o + width (b.tag.text b.name)
    ⟨start, start + width b.body.content⟩
  content := String.ofList b.body.content

end Printed

def Printed.element (b : Printed) : Element where
  opening := b.tag.text b.name
  tag := ⟨String.ofList b.name, b.tag.bag, b.tag.closes⟩
  body := b.body
  reads := by simpa using read?_text b.isName b.tag []
  proper := by simpa using b.proper

theorem Printed.text_element (b : Printed) : b.element.text = b.text := by
  simp [Element.text, Printed.element, Printed.text]

theorem splitAt_text (b : Printed) (o : Nat) (t : List Char) :
    splitAt o (b.text ++ t) = Parsed.cons (b.block o) (splitAt (o + width b.text) t) := by
  rw [← b.text_element]
  exact b.element.splitAt_text o t

/-- A written block is found behind what has no tags, with the range and the content it was written
with; each key has the value written last. What follows is split for itself. -/
theorem split_printed (x : Gap) (b : Printed) (y : String) :
    split (String.ofList (x.text ++ b.text) ++ y) =
        Parsed.cons (b.block (width x.text))
          ((split y).moved (width x.text + width b.text)) ∧
      ∀ k, (b.block (width x.text)).attrs.get? k =
        (b.tag.attributes.map Attribute.pair).reverse.lookup k := by
  constructor
  · have hrest := splitAt_add 0 (width x.text + width b.text) y.toList
    rw [Nat.zero_add] at hrest
    rw [split, String.toList_append, String.toList_ofList, List.append_assoc, splitAt_gap,
      splitAt_text, Nat.zero_add, hrest, split]
  · intro k
    exact Attributes.get?_ofList _ k

example : ∃ b : Printed,
    String.ofList b.text = "<template a=\">\" b=/><p><template c /></template>" := by
  have blank : ∀ c ∈ [' '], isBlank c = true := List.forall_mem_singleton.2 rfl
  let a : Attribute := ⟨[' '], ['a'], .quoted '"' ['>'], by decide, blank, by decide,
    List.forall_mem_singleton.2 rfl, rfl, by decide⟩
  let b : Attribute := ⟨[' '], ['b'], .plain ['/'], by decide, blank, by decide,
    List.forall_mem_singleton.2 rfl, List.forall_mem_singleton.2 rfl, '/', [], rfl, rfl⟩
  let c : Attribute := ⟨[' '], ['c'], .bare, by decide, blank, by decide,
    List.forall_mem_singleton.2 rfl, trivial⟩
  let inner : Opening := ⟨[c], [' '], true, blank, by decide⟩
  refine ⟨⟨template, ⟨[a, b], [], false, by simp, by simp⟩,
    .nested (.void ['<', 'p', '>'] inner (.text [])), isName_template, rfl, rfl, ?_⟩, ?_⟩
  · exact ⟨by decide, rfl, List.forall_mem_singleton.2
      ⟨show Free ['c'] by decide, show Free "true".toList by decide⟩, show Free [] by decide⟩
  · rfl

end Markup

end BlockLens
