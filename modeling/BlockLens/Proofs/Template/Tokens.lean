import BlockLens.Proofs.Markup.RoundTrip
import BlockLens.Proofs.Template.Reader

set_option autoImplicit false

namespace BlockLens.Template

open Text Markup

structure ElementName where
  text : List Char
  starts : ∃ c r, text = c :: r ∧ c.isAlpha = true
  chars : ∀ c ∈ text, c.isAlphanum = true ∨ c = '-'

def Marked : Spelling → Prop
  | .bare | .quoted _ _ => True
  | .plain _ => False

inductive Token where
  | text (s : List Char) (noTag : '<' ∉ s) (noBraces : contains ['{', '{'] s = false)
    (ends : s.getLast? ≠ some '{')
  | comment (s : List Char) (noEnd : contains ['-', '-', '>'] s = false)
    (starts : ¬ ['>'] <+: s ∧ ¬ ['-', '>'] <+: s)
  | interpolation (s : List Char) (noEnd : contains ['}', '}'] s = false)
    (ends : s.getLast? ≠ some '}')
  | endTag (name : ElementName)
  | startTag (name : ElementName) (attributes : List Attribute)
    (marked : ∀ a ∈ attributes, Marked a.spelling) (closes : Bool)

namespace Token

def print : Token → List Char
  | .text s _ _ _ => s
  | .comment s _ _ => "<!--".toList ++ s ++ "-->".toList
  | .interpolation s _ _ => ['{', '{'] ++ s ++ ['}', '}']
  | .endTag name => "</".toList ++ name.text ++ ['>']
  | .startTag name attributes _ closes =>
    '<' :: name.text ++ attributes.flatMap Attribute.text ++ Opening.ending closes

end Token

def valueAt (o : Nat) (a : Attribute) : Option Excerpt :=
  match a.spelling with
  | .quoted _ v =>
    if Bound a.key ∧ Visible v then some ⟨o + width a.gap + width a.key + 2, v⟩ else none
  | _ => none

def valuesFrom (o : Nat) : List Attribute → List Excerpt
  | [] => []
  | a :: as => (valueAt o a).toList ++ valuesFrom (o + width a.text) as

def Token.expressions (o : Nat) : Token → List Excerpt
  | .interpolation s _ _ => if Visible s then [⟨o + 2, s⟩] else []
  | .startTag name attributes _ _ => valuesFrom (o + 1 + width name.text) attributes
  | .text _ _ _ _ | .comment _ _ _ | .endTag _ => []

def tokenExpressions (o : Nat) : List Token → List Excerpt
  | [] => []
  | t :: ts => t.expressions o ++ tokenExpressions (o + width t.print) ts

theorem loose_tail (as : List Attribute) (closes : Bool) (r : List Char) :
    Loose (as.flatMap Attribute.text ++ (Opening.ending closes ++ r)) := by
  cases as with
  | nil =>
    cases closes with
    | false => exact loose_cons (.inr (.inl rfl))
    | true => exact loose_cons (.inr (.inr rfl))
  | cons a as =>
    obtain ⟨c, u, hu⟩ := List.exists_cons_of_ne_nil a.gap_ne
    have hc := a.gap_blank c (by simp [hu])
    simpa [Attribute.text, hu] using loose_cons (.inl hc)

theorem readAttributes_attribute (o : Nat) (a : Attribute) (ha : Marked a.spelling) {t : List Char}
    (ht : Loose t) :
    readAttributes o (a.text ++ t) =
      ((valueAt o a).toList ++ (readAttributes (o + width a.text) t).1,
        (readAttributes (o + width a.text) t).2) := by
  have hwidth : o + width a.text = o + width a.gap + width (a.key ++ a.spelling.text) := by
    rw [Attribute.text, width_append, Nat.add_assoc]
  rw [hwidth, Attribute.text, List.append_assoc, readAttributes_blanks o a.gap_blank,
    List.append_assoc]
  cases hs : a.spelling with
  | bare =>
    simp only [Spelling.text, List.nil_append, List.append_nil, valueAt, hs, Option.toList_none,
      readAttributes_bare _ a.key_ne a.key_chars ht]
  | plain v => simp [hs, Marked] at ha
  | quoted q v =>
    obtain ⟨hq, hv⟩ : Tag.isQuote q = true ∧ q ∉ v := by
      have h := a.proper
      rwa [hs] at h
    have hsplit : a.key ++ ((Spelling.quoted q v).text ++ t) = a.key ++ '=' :: q :: (v ++ q :: t) := by
      simp [Spelling.text]
    rw [hsplit, readAttributes_quoted _ a.key_ne a.key_chars hq hv]
    by_cases he : Bound a.key ∧ Visible v
    · simp [valueAt, hs, he, Spelling.text]
    · simp [valueAt, hs, he, Spelling.text]

theorem readAttributes_tail (o : Nat) {as : List Attribute} (has : ∀ a ∈ as, Marked a.spelling)
    (closes : Bool) (r : List Char) :
    readAttributes o (as.flatMap Attribute.text ++ (Opening.ending closes ++ r)) =
      (valuesFrom o as, r) := by
  induction as generalizing o with
  | nil =>
    rw [readAttributes_eq]
    cases closes <;> rfl
  | cons a as ih =>
    have hsplit : (a :: as).flatMap Attribute.text ++ (Opening.ending closes ++ r) =
        a.text ++ (as.flatMap Attribute.text ++ (Opening.ending closes ++ r)) := by simp
    rw [hsplit, readAttributes_attribute o a (has a List.mem_cons_self) (loose_tail as closes r),
      ih (o + width a.text) fun b hb => has b (List.mem_cons_of_mem _ hb)]
    rfl

theorem expressionsFrom_text {s : List Char} (hs : '<' ∉ s) (hb : contains ['{', '{'] s = false)
    (he : s.getLast? ≠ some '{') (o : Nat) (r : List Char) :
    expressionsFrom o (s ++ r) = expressionsFrom (o + width s) r := by
  induction s generalizing o with
  | nil => rfl
  | cons c s ih =>
    simp only [List.mem_cons, not_or] at hs
    obtain ⟨hafter, hrest⟩ := contains_cons_eq_false.1 hb
    have hbrace : c = '{' → (s ++ r).head? ≠ some '{' := by
      rintro rfl
      cases s with
      | nil => simp at he
      | cons d s =>
        rintro h
        obtain rfl : d = '{' := by simpa using h
        simp [after?] at hafter
    have hend : s.getLast? ≠ some '{' := fun h => he (by rw [List.getLast?_cons, h]; rfl)
    rw [List.cons_append, expressionsFrom_other o (fun h => absurd h (Ne.symm hs.1)) hbrace,
      ih hs.2 hrest hend, width, Nat.add_assoc]

theorem ElementName.isTagChar (name : ElementName) {c : Char} (hc : c ∈ name.text) :
    Template.isTagChar c = true := by
  cases h : Template.isTagChar c with
  | true => rfl
  | false =>
    simp only [Template.isTagChar, isBlank, Bool.not_eq_false', Bool.or_eq_true, beq_iff_eq] at h
    have hname := name.chars c hc
    rcases h with (((((rfl | rfl) | rfl) | rfl) | rfl) | rfl) | rfl <;> simp at hname

theorem ElementName.ne_of_mem (name : ElementName) {c : Char} (hc : c ∈ name.text) :
    c ≠ '<' ∧ c ≠ '{' := by
  have hname := name.chars c hc
  constructor
  · rintro rfl
    simp at hname
  · rintro rfl
    simp at hname

theorem expressionsFrom_endTag (o : Nat) (name : ElementName) (r : List Char) :
    expressionsFrom o ('<' :: ('/' :: name.text ++ ['>'] ++ r)) =
      expressionsFrom (o + 1 + width ('/' :: name.text ++ ['>'])) r := by
  have hplain : ∀ c ∈ '/' :: name.text ++ ['>'], c ≠ '<' ∧ c ≠ '{' := by
    intro c hc
    simp only [List.cons_append, List.mem_cons, List.mem_append, List.not_mem_nil, or_false] at hc
    rcases hc with rfl | hc | rfl
    · decide
    · exact name.ne_of_mem hc
    · decide
  have hbraces : contains ['{', '{'] ('/' :: name.text ++ ['>']) = false := by
    refine Bool.eq_false_iff.2 fun h => ?_
    obtain ⟨b, u, hu⟩ := contains_eq_true.1 h
    exact (hplain '{' (by rw [hu]; simp)).2 rfl
  rw [expressionsFrom_other o (fun _ => ⟨by simp, by rintro _ ⟨⟩; decide⟩) (by rintro ⟨⟩)]
  exact expressionsFrom_text (fun h => (hplain '<' h).1 rfl) hbraces
    (by rw [List.getLast?_concat]; decide) (o + 1) r

theorem isTagChar_of_loose {t : List Char} (ht : Loose t) : ∀ c ∈ t.head?, isTagChar c = false := by
  intro c hc
  obtain ⟨hkey, hne⟩ := ht c hc
  simpa [isTagChar, Tag.isKeyChar, hne, or_assoc] using hkey

theorem expressionsFrom_startTag (o : Nat) (name : ElementName) {as : List Attribute}
    (has : ∀ a ∈ as, Marked a.spelling) (closes : Bool) (r : List Char) :
    expressionsFrom o ((Token.startTag name as has closes).print ++ r) =
      valuesFrom (o + 1 + width name.text) as ++
        expressionsFrom (o + width (Token.startTag name as has closes).print) r := by
  obtain ⟨c, u, hname, hc⟩ := name.starts
  have htail := loose_tail as closes r
  obtain ⟨htake, hdrop⟩ := takeWhile_append (fun d hd => name.isTagChar hd) (isTagChar_of_loose htail)
  have hsplit : (Token.startTag name as has closes).print ++ r =
      '<' :: (name.text ++ (as.flatMap Attribute.text ++ (Opening.ending closes ++ r))) := by
    simp [Token.print]
  have hwidth : width ('<' :: (name.text ++ (as.flatMap Attribute.text ++
      (Opening.ending closes ++ r)))) - width r = width (Token.startTag name as has closes).print := by
    rw [← hsplit, width_append, Nat.add_sub_cancel]
  rw [hsplit]
  rw [hname, List.cons_append] at htake hdrop hwidth ⊢
  rw [expressionsFrom_tag o hc, htake, hdrop, ← hname, readAttributes_tail _ has]
  simp only [hwidth]

/-- A comment is over where its end is first written, if it is not over at once. -/
theorem cut?_opened_comment {s : List Char} (hs : contains ['-', '-', '>'] s = false)
    (hstart : ¬ ['>'] <+: s ∧ ¬ ['-', '>'] <+: s) (r : List Char) :
    cut? ['-', '-', '>'] ('!' :: '-' :: '-' :: (s ++ '-' :: '-' :: '>' :: r)) =
      some ('!' :: '-' :: '-' :: s, r) := by
  have hfirst : after? ['>'] s = none :=
    after?_eq_none.2 fun u hu => hstart.1 ⟨u, hu.symm⟩
  have hsecond : after? ['-', '>'] s = none :=
    after?_eq_none.2 fun u hu => hstart.2 ⟨u, hu.symm⟩
  have hopen : contains ['-', '-', '>'] ('!' :: '-' :: '-' :: s) = false := by
    simpa [contains, cut?, after?, hfirst, hsecond] using hs
  exact cut?_comment hopen r

theorem cut?_interpolation {s : List Char} (hs : contains ['}', '}'] s = false)
    (he : s.getLast? ≠ some '}') (r : List Char) :
    cut? ['}', '}'] (s ++ '}' :: '}' :: r) = some (s, r) := by
  induction s with
  | nil => simp [cut?, after?]
  | cons c s ih =>
    obtain ⟨hafter, hrest⟩ := contains_cons_eq_false.1 hs
    have hnone : after? ['}', '}'] (c :: (s ++ '}' :: '}' :: r)) = none := by
      cases s with
      | nil =>
        have hc : c ≠ '}' := by simpa using he
        simp [after?, hc.symm]
      | cons d s => simpa [after?] using hafter
    have hend : s.getLast? ≠ some '}' := fun h => he (by rw [List.getLast?_cons, h]; rfl)
    rw [List.cons_append, cut?, hnone, ih hrest hend]
    rfl

/-- A token is read for itself, whatever follows it. -/
theorem expressionsFrom_token (o : Nat) (t : Token) (r : List Char) :
    expressionsFrom o (t.print ++ r) = t.expressions o ++ expressionsFrom (o + width t.print) r := by
  cases t with
  | text s hs hb he => exact expressionsFrom_text hs hb he o r
  | comment s hs hstart =>
    have hsplit : (Token.comment s hs hstart).print ++ r =
        '<' :: '!' :: '-' :: '-' :: (s ++ '-' :: '-' :: '>' :: r) := by simp [Token.print]
    have hwidth : o + 1 + width ('!' :: '-' :: '-' :: s) + 3 =
        o + width (Token.comment s hs hstart).print := by
      simp [Token.print, width, Char.utf8Size]
      omega
    rw [hsplit, expressionsFrom_comment o (cut?_opened_comment hs hstart r), hwidth]
    rfl
  | interpolation s hs he =>
    have hsplit : (Token.interpolation s hs he).print ++ r =
        '{' :: '{' :: (s ++ '}' :: '}' :: r) := by simp [Token.print]
    have hwidth : o + 2 + width s + 2 = o + width (Token.interpolation s hs he).print := by
      simp [Token.print, width, Char.utf8Size]
      omega
    rw [hsplit, expressionsFrom_interpolation o (cut?_interpolation hs he r), hwidth]
    rfl
  | endTag name =>
    have hsplit : (Token.endTag name).print ++ r = '<' :: ('/' :: name.text ++ ['>'] ++ r) := by
      simp [Token.print]
    have hwidth : o + 1 + width ('/' :: name.text ++ ['>']) = o + width (Token.endTag name).print := by
      simp [Token.print, width, Char.utf8Size]
      omega
    rw [hsplit, expressionsFrom_endTag, hwidth]
    rfl
  | startTag name as has closes => exact expressionsFrom_startTag o name has closes r

/-- Of well-formed markup exactly the expressions are found. -/
theorem expressions_flatMap_print (ts : List Token) :
    expressions (.ofList (ts.flatMap Token.print)) = tokenExpressions 0 ts := by
  have hfrom : ∀ o, expressionsFrom o (ts.flatMap Token.print) = tokenExpressions o ts := by
    induction ts with
    | nil =>
      intro o
      rw [List.flatMap_nil, expressionsFrom, tokenExpressions]
    | cons t ts ih =>
      intro o
      rw [List.flatMap_cons, expressionsFrom_token, ih, tokenExpressions]
  rw [expressions, String.toList_ofList, hfrom]

end BlockLens.Template
