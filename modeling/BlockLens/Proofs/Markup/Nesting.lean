import BlockLens.Proofs.Markup.Printed
/-!
Templates in templates. The end of a template is found by counting, and the count goes by words of
the text, not by elements. Over content that is written properly the two are the same: what is not
a tag holds neither word, and every element is closed.
-/

set_option autoImplicit false

namespace BlockLens

open Text

namespace Markup

/-- In `p ++ t`, the word `w` begins nowhere in `p`. -/
def Avoids (w : List Char) : List Char → List Char → Prop
  | [], _ => True
  | c :: p, t => after? w (c :: p ++ t) = none ∧ Avoids w p t

theorem avoids_append {w p q t : List Char} :
    Avoids w (p ++ q) t ↔ Avoids w p (q ++ t) ∧ Avoids w q t := by
  induction p with
  | nil => simp [Avoids]
  | cons c p ih => simp [Avoids, ih, and_assoc]

theorem cut?_of_avoids {w p t : List Char} (h : Avoids w p t) :
    cut? w (p ++ t) = (cut? w t).map fun q => (p ++ q.1, q.2) := by
  induction p with
  | nil => simp
  | cons c p ih =>
    obtain ⟨ha, hp⟩ := h
    rw [List.cons_append] at ha ⊢
    rw [cut?, ha, ih hp]
    cases cut? w t <;> rfl

theorem avoids_of_cut? {w s b r : List Char} (h : cut? w s = some (b, r)) :
    Avoids w b (w ++ r) := by
  induction s generalizing b with
  | nil =>
    simp only [cut?, Option.map_eq_some_iff, Prod.mk.injEq] at h
    obtain ⟨_, -, rfl, -⟩ := h
    trivial
  | cons c s ih =>
    have hs := eq_of_cut? h
    simp only [cut?] at h
    split at h
    · simp only [Option.some.injEq, Prod.mk.injEq] at h
      obtain ⟨rfl, -⟩ := h
      trivial
    · next ha =>
      simp only [Option.map_eq_some_iff, Prod.mk.injEq] at h
      obtain ⟨⟨b', r'⟩, hcut, rfl, rfl⟩ := h
      rw [hs, List.append_assoc] at ha
      exact ⟨ha, ih hcut⟩

theorem avoids_of_not_mem {x : Char} {w p : List Char} (h : x ∉ p) (t : List Char) :
    Avoids (x :: w) p t := by
  induction p with
  | nil => trivial
  | cons c p ih =>
    simp only [List.mem_cons, not_or] at h
    exact ⟨by simp [after?, h.1], ih h.2⟩

theorem not_mem_of_avoids {x : Char} {p t : List Char} (h : Avoids [x] p t) : x ∉ p := by
  induction p with
  | nil => simp
  | cons c p ih =>
    obtain ⟨ha, hp⟩ := h
    have hc : x ≠ c := by
      rintro rfl
      simp [after?] at ha
    simp [hc, ih hp]

theorem avoids_of_contains {x y : Char} {w p : List Char} (hp : contains (x :: w) p = false)
    (hy : y ∉ w) (t : List Char) : Avoids (x :: w) p (y :: t) := by
  induction p with
  | nil => trivial
  | cons c p ih =>
    obtain ⟨ha, hrest⟩ := contains_cons_eq_false.1 hp
    refine ⟨after?_eq_none.2 fun r hr => ?_, ih hrest⟩
    simp only [List.cons_append, List.cons.injEq] at hr
    obtain ⟨rfl, hr⟩ := hr
    rcases List.append_eq_append_iff.1 hr with ⟨u, hw, hu⟩ | ⟨u, hw, -⟩
    · cases u with
      | nil => exact after?_eq_none.1 ha [] (by simpa using hw.symm)
      | cons d u =>
        -- the word would reach over `y`
        simp only [List.cons_append, List.cons.injEq] at hu
        exact hy (by rw [hw, hu.1]; simp)
    · exact after?_eq_none.1 ha u (by simp [hw])

theorem countOpens_of_avoids {name p t : List Char} (h : Avoids ('<' :: name) p t) (n : Nat) :
    countOpens name (p.length + n) (p ++ t) = countOpens name n t := by
  induction p with
  | nil => simp
  | cons c p ih =>
    obtain ⟨ha, hp⟩ := h
    have ho : opens name (c :: (p ++ t)) = false := by
      rw [List.cons_append] at ha
      simp [opens, ha]
    rw [List.length_cons, Nat.add_right_comm, List.cons_append, countOpens, ho, ih hp]
    simp

theorem content?_of_cut? {name s : List Char} (d : Nat) (nested : Bool) :
    content? name nested d s =
      (cut? ('<' :: '/' :: name) s).bind fun p =>
        (cut? ['>'] p.2).bind fun q =>
          match depthAfter name nested d p.1 s with
          | 0 => some (p.1, q.2)
          | e + 1 =>
            (content? name nested e q.2).map fun x =>
              (p.1 ++ '<' :: '/' :: name ++ q.1 ++ '>' :: x.1, x.2) := by
  rw [content?]
  split
  · next h => simp [h]
  · next body t h =>
    simp only [h, Option.bind_some]
    split
    · next h' => simp [h']
    · next gap r h' =>
      cases depthAfter name nested d body s <;> simp only [h', Option.bind_some]

/-- A stretch that closes nothing and opens `k` elements can be set aside. -/
theorem content?_append {name p t : List Char} {d k : Nat}
    (hclose : Avoids ('<' :: '/' :: name) p t)
    (hopen : ∀ n, countOpens name (p.length + n) (p ++ t) = k + countOpens name n t) :
    content? name true d (p ++ t) =
      (content? name true (d + k) t).map fun q => (p ++ q.1, q.2) := by
  rw [content?_of_cut?, content?_of_cut? (s := t), cut?_of_avoids hclose]
  cases cut? ('<' :: '/' :: name) t with
  | none => rfl
  | some q =>
    obtain ⟨body, u⟩ := q
    have hdepth : depthAfter name true d (p ++ body) (p ++ t) =
        depthAfter name true (d + k) body t := by
      simp only [depthAfter, if_true, List.length_append, hopen]
      omega
    simp only [Option.map_some, Option.bind_some]
    cases cut? ['>'] u with
    | none => rfl
    | some q =>
      obtain ⟨gap, r⟩ := q
      simp only [Option.bind_some, hdepth]
      split
      · rfl
      · cases content? name true _ r with
        | none => rfl
        | some x => simp

def endTag (name : List Char) : List Char := '<' :: '/' :: name ++ ['>']

theorem content?_endTag (name r : List Char) (d : Nat) (nested : Bool) :
    content? name nested d (endTag name ++ r) =
      match d with
      | 0 => some ([], r)
      | e + 1 => (content? name nested e r).map fun q => (endTag name ++ q.1, q.2) := by
  have htext : endTag name ++ r = '<' :: '/' :: name ++ '>' :: r := by simp [endTag]
  have hcut : cut? ('<' :: '/' :: name) (endTag name ++ r) = some ([], '>' :: r) := by
    have ha := after?_append ('<' :: '/' :: name) ('>' :: r)
    rw [htext]
    simp only [List.cons_append] at ha ⊢
    rw [cut?, ha]
  have hgap : cut? ['>'] ('>' :: r) = some ([], r) := by simp [cut?, after?]
  have hdepth : depthAfter name nested d [] (endTag name ++ r) = d := by
    simp [depthAfter, countOpens]
  rw [content?_of_cut?, hcut]
  simp only [Option.bind_some, hgap, hdepth]
  cases d <;> simp [endTag]

def Inner (w : List Char) : Prop :=
  ∀ c ∈ w, isBlank c = false ∧ Tag.isQuote c = false ∧ c ≠ '=' ∧ c ≠ '>' ∧ c ≠ '<'

theorem not_mem_of_inner {w : List Char} (hw : Inner w) {c : Char}
    (h : isBlank c = true ∨ Tag.isQuote c = true ∨ c = '=' ∨ c = '>' ∨ c = '<') : c ∉ w := by
  intro hc
  obtain ⟨h₁, h₂, h₃, h₄, h₅⟩ := hw c hc
  rcases h with h | h | h | h | h <;> simp_all

theorem inner_of_isName {name : List Char} (h : IsName name) : Inner name := by
  intro c hc
  have hchar := (h.2 c hc).1
  refine ⟨?_, ?_, ?_, ?_, ?_⟩
  · refine Bool.eq_false_iff.2 fun hblank => ?_
    rw [isNameChar_of_breaks c (.inl hblank)] at hchar
    contradiction
  · refine Bool.eq_false_iff.2 fun hquote => ?_
    simp only [Tag.isQuote, Bool.or_eq_true, beq_iff_eq] at hquote
    rcases hquote with rfl | rfl <;> contradiction
  all_goals
    rintro rfl
    contradiction

theorem not_mem_of_blank {u : List Char} (hu : ∀ c ∈ u, isBlank c = true) : '<' ∉ u :=
  fun h => absurd (hu _ h) (by decide)

theorem avoids_breaks {w p t : List Char} (hw : Inner w) (hp : contains ('<' :: w) p = false)
    (ht : Breaks t) : Avoids ('<' :: w) p t := by
  obtain ⟨c, hc, hbreak⟩ := ht
  obtain ⟨r, rfl⟩ := List.head?_eq_some_iff.1 hc
  refine avoids_of_contains hp (not_mem_of_inner hw ?_) r
  rcases hbreak with h | h
  · exact .inl h
  · exact .inr (.inr (.inr (.inl h)))

theorem avoids_attribute {w : List Char} (hw : Inner w) (a : Attribute) {t : List Char}
    (hk : contains ('<' :: w) a.key = false) (hv : contains ('<' :: w) a.spelling.value = false)
    (ht : Breaks t) : Avoids ('<' :: w) a.text t := by
  have hgap : ∀ u, Avoids ('<' :: w) a.gap u := avoids_of_not_mem (not_mem_of_blank a.gap_blank)
  have hkey : ∀ u, Avoids ('<' :: w) a.key ('=' :: u) :=
    avoids_of_contains hk (not_mem_of_inner hw (.inr (.inr (.inl rfl))))
  rw [Attribute.text, avoids_append, avoids_append]
  refine ⟨hgap _, ?_⟩
  cases hs : a.spelling with
  | bare => exact ⟨avoids_breaks hw hk ht, trivial⟩
  | plain v =>
    rw [hs] at hv
    have hval : Avoids ('<' :: w) v t := avoids_breaks hw hv ht
    have hsign : Avoids ('<' :: w) ['='] (v ++ t) := avoids_of_not_mem (by decide) _
    exact ⟨hkey _, avoids_append.2 ⟨hsign, hval⟩⟩
  | quoted q v =>
    have hproper := a.proper
    rw [hs] at hproper hv
    obtain ⟨hq, -⟩ := hproper
    have hne : '<' ≠ q := by
      rintro rfl
      simp [Tag.isQuote] at hq
    have hval : Avoids ('<' :: w) v (q :: t) :=
      avoids_of_contains hv (not_mem_of_inner hw (.inr (.inl hq))) t
    have hfirst : Avoids ('<' :: w) ['=', q] (v ++ [q] ++ t) := avoids_of_not_mem (by simp [hne]) _
    have hlast : Avoids ('<' :: w) [q] t := avoids_of_not_mem (by simp [hne]) t
    have htext : (Spelling.quoted q v).text = ['=', q] ++ (v ++ [q]) := by simp [Spelling.text]
    rw [htext]
    exact ⟨hkey _, avoids_append.2 ⟨hfirst, avoids_append.2 ⟨hval, hlast⟩⟩⟩

theorem avoids_tail {w : List Char} (hw : Inner w) (g : Opening) {as : List Attribute}
    (hg : ∀ a ∈ as,
      contains ('<' :: w) a.key = false ∧ contains ('<' :: w) a.spelling.value = false)
    (t : List Char) : Avoids ('<' :: w) (g.tail as) t := by
  induction as with
  | nil =>
    refine avoids_of_not_mem ?_ t
    have htrail := not_mem_of_blank g.trail_blank
    cases hc : g.closes <;> simp [Opening.tail, Opening.ending, htrail, hc]
  | cons a as ih =>
    obtain ⟨hk, hv⟩ := hg a List.mem_cons_self
    have hsplit : g.tail (a :: as) = a.text ++ g.tail as := by simp [Opening.tail]
    rw [hsplit, avoids_append]
    exact ⟨avoids_attribute hw a hk hv (g.breaks_tail as t), ih fun b hb => hg b (by simp [hb])⟩

def template : List Char := "template".toList

theorem isName_template : IsName template := isName_of_all (by decide) (by decide)

def Free (s : List Char) : Prop :=
  contains ('<' :: template) s = false ∧ contains ('<' :: '/' :: template) s = false

instance (s : List Char) : Decidable (Free s) := inferInstanceAs (Decidable (_ ∧ _))

def Opening.Free (g : Opening) : Prop :=
  ∀ a ∈ g.attributes, Markup.Free a.key ∧ Markup.Free a.spelling.value

instance (g : Opening) : Decidable g.Free := inferInstanceAs (Decidable (∀ a ∈ g.attributes, _ ∧ _))

theorem inner_template : Inner template ∧ Inner ('/' :: template) := by
  have hname : Inner template := inner_of_isName isName_template
  exact ⟨hname, List.forall_mem_cons.2 ⟨by decide, hname⟩⟩

theorem opens_text (g : Opening) (t : List Char) :
    opens template (g.text template ++ t) = !g.closes := by
  have hsplit : g.text template ++ t = '<' :: template ++ (g.tail g.attributes ++ t) := by
    simp [Opening.text]
  obtain ⟨c, hc, hbreak⟩ := g.breaks_tail g.attributes t
  obtain ⟨r, hr⟩ := List.head?_eq_some_iff.1 hc
  have hafter : after? ('<' :: template) (g.text template ++ t) = some (c :: r) := by
    rw [hsplit, after?_append, hr]
  have hnext : (isBlank c || c == '>' || c == '/') = true := by
    rcases hbreak with h | rfl
    · simp [h]
    · rfl
  simp only [opens, hafter, hnext, read?_text isName_template, Bool.true_and]

theorem avoids_text {g : Opening} (hg : g.Free) (t : List Char) :
    Avoids ('<' :: '/' :: template) (g.text template) t := by
  have hname : Avoids ('<' :: '/' :: template) ('<' :: template) (g.tail g.attributes ++ t) :=
    avoids_breaks inner_template.2 (by decide) (g.breaks_tail g.attributes t)
  exact avoids_append.2
    ⟨hname, avoids_tail inner_template.2 g (fun a ha => ⟨(hg a ha).1.2, (hg a ha).2.2⟩) t⟩

theorem content?_tag {g : Opening} (hg : g.Free) (d : Nat) (t : List Char) :
    content? template true d (g.text template ++ t) =
      (content? template true (d + if g.closes then 0 else 1) t).map fun q =>
        (g.text template ++ q.1, q.2) := by
  refine content?_append (avoids_text hg t) fun n => ?_
  have hname : Avoids ('<' :: template) template (g.tail g.attributes ++ t) :=
    avoids_breaks inner_template.1 (by decide) (g.breaks_tail g.attributes t)
  have hrest : Avoids ('<' :: template) (template ++ g.tail g.attributes) t :=
    avoids_append.2
      ⟨hname, avoids_tail inner_template.1 g (fun a ha => ⟨(hg a ha).1.1, (hg a ha).2.1⟩) t⟩
  have hopens := opens_text g t
  have hsplit : g.text template ++ t = '<' :: (template ++ g.tail g.attributes ++ t) := by
    simp [Opening.text]
  have hlen : (g.text template).length + n =
      (template ++ g.tail g.attributes).length + n + 1 := by
    simp [Opening.text]
    omega
  rw [hlen, hsplit, countOpens, ← hsplit, hopens, countOpens_of_avoids hrest]
  cases g.closes <;> simp

/-- The content of a template: stretches of text, and between them elements that are closed or
close themselves. -/
inductive Content where
  | text (s : List Char)
  | element (s : List Char) (tag : Opening) (inner rest : Content)
  | void (s : List Char) (tag : Opening) (rest : Content)

namespace Content

def print : Content → List Char
  | .text s => s
  | .element s tag inner rest =>
    s ++ (tag.text template ++ (inner.print ++ (endTag template ++ rest.print)))
  | .void s tag rest => s ++ (tag.text template ++ rest.print)

def Proper : Content → Prop
  | .text s => Free s
  | .element s tag inner rest =>
    Free s ∧ tag.closes = false ∧ tag.Free ∧ inner.Proper ∧ rest.Proper
  | .void s tag rest => Free s ∧ tag.closes = true ∧ tag.Free ∧ rest.Proper

end Content

def Starts (t : List Char) : Prop := ∃ u, t = '<' :: u

theorem starts_text (g : Opening) (t : List Char) : Starts (g.text template ++ t) :=
  ⟨template ++ (g.tail g.attributes ++ t), by simp [Opening.text]⟩

theorem starts_endTag (name t : List Char) : Starts (endTag name ++ t) :=
  ⟨'/' :: name ++ '>' :: t, by simp [endTag]⟩

theorem content?_free {s t : List Char} (hs : Free s) (ht : Starts t) (d : Nat) :
    content? template true d (s ++ t) =
      (content? template true d t).map fun q => (s ++ q.1, q.2) := by
  obtain ⟨u, rfl⟩ := ht
  have hclose : Avoids ('<' :: '/' :: template) s ('<' :: u) :=
    avoids_of_contains hs.2 (by decide) u
  have hopen : Avoids ('<' :: template) s ('<' :: u) := avoids_of_contains hs.1 (by decide) u
  exact content?_append (k := 0) hclose fun n => by rw [countOpens_of_avoids hopen, Nat.zero_add]

/-- Over a balanced content the count of open elements comes out even. -/
theorem content?_print {c : Content} (hc : c.Proper) {t : List Char} (ht : Starts t) (d : Nat) :
    content? template true d (c.print ++ t) =
      (content? template true d t).map fun q => (c.print ++ q.1, q.2) := by
  induction c generalizing d t with
  | text s => exact content?_free hc ht d
  | element s tag inner rest ihi ihr =>
    obtain ⟨hs, hcl, hg, hi, hr⟩ := hc
    simp only [Content.print, List.append_assoc]
    rw [content?_free hs (starts_text _ _), content?_tag hg, hcl, ihi hi (starts_endTag _ _),
      content?_endTag]
    simp only [Bool.false_eq_true, if_false]
    rw [ihr hr ht]
    simp [Function.comp_def]
  | void s tag rest ihr =>
    obtain ⟨hs, hcl, hg, hr⟩ := hc
    simp only [Content.print, List.append_assoc]
    rw [content?_free hs (starts_text _ _), content?_tag hg, hcl]
    simp only [if_true, Nat.add_zero]
    rw [ihr hr ht]
    simp [Function.comp_def]

end Markup

end BlockLens
