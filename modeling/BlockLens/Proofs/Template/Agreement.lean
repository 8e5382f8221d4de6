import BlockLens.Proofs.Markup.Stretches
import BlockLens.Proofs.Template.Expressions
import BlockLens.Proofs.Template.Tokens
/-!
Two readers of one tag. What the reader of tags takes for the quoted value of a bound attribute, the
reader of templates finds only if the equals sign stands between key and mark without blanks, and
then always, unless the name or an earlier attribute has brought the two out of step.
-/

set_option autoImplicit false

namespace BlockLens.Template

open Text Markup
open Tag (Stretch IsSign Meets)

def Calm (s : List Char) : Prop := contains ['=', '"'] s = false ∧ contains ['=', '\x27'] s = false

instance (s : List Char) : Decidable (Calm s) := inferInstanceAs (Decidable (_ ∧ _))

theorem calm_iff {s : List Char} :
    Calm s ↔ ∀ a q b, s = a ++ '=' :: q :: b → Tag.isQuote q = false := by
  have hword : ∀ q, contains ['=', q] s = false ↔ ∀ a b, s ≠ a ++ '=' :: q :: b := by
    intro q
    rw [Bool.eq_false_iff, Ne, contains_eq_true]
    simp
  simp only [Calm, hword]
  constructor
  · rintro ⟨hdouble, hsingle⟩ a q b hs
    refine Bool.eq_false_iff.2 fun hq => ?_
    simp only [Tag.isQuote, Bool.or_eq_true, beq_iff_eq] at hq
    rcases hq with rfl | rfl
    · exact hdouble a b hs
    · exact hsingle a b hs
  · intro h
    exact ⟨fun a b hs => absurd (h a _ b hs) (by simp [Tag.isQuote]),
      fun a b hs => absurd (h a _ b hs) (by simp [Tag.isQuote])⟩

theorem Calm.of_append {u w : List Char} (h : Calm (u ++ w)) : Calm w :=
  calm_iff.2 fun a q b hw => calm_iff.1 h (u ++ a) q b (by simp [hw])

def Separates : Stretch → Prop
  | .gap _ => True
  | .stray c => c = '/'
  | _ => False

/-- Both readers are side by side behind the stretches. For the reader of templates a sign with blanks
begins no value: nothing in the quotation behind it may end the tag or begin another value, and what
follows may not run on. -/
def Even : List Stretch → Prop
  | [] => True
  | .gap _ :: ps | .stray _ :: ps | .bare _ :: ps => Even ps
  | .plain _ _ value :: ps => Calm value ∧ Even ps
  | .quoted _ sign mark value :: ps =>
    (sign = ['='] ∨
        '>' ∉ value ∧ Calm (mark :: value ++ [mark]) ∧ ∃ p ∈ ps.head?, Separates p) ∧
      Even ps

def NameEnds (s : List Char) : Prop :=
  ∀ c ∈ (Tag.behindName s).head?, isTagChar c = false

def found? (o : Nat) : Stretch → Option Excerpt
  | .quoted key sign mark value =>
    if sign = ['='] ∧ Bound key ∧ Visible value then
      some ⟨o + width (key ++ sign ++ [mark]), value⟩
    else none
  | _ => none

def Passed (r : List Char) : Stretch → Prop
  | .gap _ | .stray _ | .bare _ => True
  | .plain _ _ value => Calm value
  | .quoted _ sign mark value =>
    sign = ['='] ∨ '>' ∉ value ∧ Calm (mark :: value ++ [mark]) ∧ Loose r

theorem isQuote_of_not_key {c : Char} (h : Tag.isKeyChar c = false) : Tag.isQuote c = false :=
  Bool.eq_false_iff.2 fun hq => by simp [isKeyChar_of_isQuote hq] at h

theorem readAttributes_stray (o : Nat) {c : Char} (hc : c = '=' ∨ c = '/') (t : List Char) :
    readAttributes o (c :: t) = readAttributes (o + width [c]) t := by
  rcases hc with rfl | rfl
  · exact readAttributes_turn (u := ['=']) o rfl (by decide) rfl rfl
  · exact readAttributes_gap (u := ['/']) o (List.forall_mem_singleton.2 rfl) t

theorem readAttributes_unquoted (o : Nat) {k w : List Char} (hne : k ≠ [])
    (hk : ∀ d ∈ k, Tag.isKeyChar d = true) (hw : ∀ c ∈ w.head?, Tag.isQuote c = false) :
    readAttributes o (k ++ '=' :: w) = readAttributes (o + width (k ++ ['='])) w := by
  obtain ⟨c, k, rfl⟩ := List.exists_cons_of_ne_nil hne
  have hc := hk c List.mem_cons_self
  have hread : readAttribute o c (k ++ '=' :: w) = (none, w) := by
    obtain ⟨-, hdrop⟩ := takeWhile_append (t := '=' :: w)
      (fun d hd => hk d (List.mem_cons_of_mem _ hd)) (by rintro _ ⟨⟩; rfl)
    rw [readAttribute, if_pos hc, hdrop]
    cases w with
    | nil => rfl
    | cons q w =>
      have hq : Tag.isQuote q = false := hw q rfl
      simp only [hq, Bool.false_eq_true, if_false]
  exact readAttributes_turn o (isGap_of_isKeyChar hc) (ne_of_isKeyChar hc) hread (by simp)

theorem readAttributes_sign (o : Nat) {k sign w : List Char} (hne : k ≠ [])
    (hk : ∀ d ∈ k, Tag.isKeyChar d = true) (hsign : IsSign sign)
    (hw : sign = ['='] → ∀ c ∈ w.head?, Tag.isQuote c = false) :
    readAttributes o (k ++ sign ++ w) = readAttributes (o + width (k ++ sign)) w := by
  obtain ⟨a, b, rfl, ha, hb⟩ := hsign
  cases a with
  | nil =>
    have hbehind : ∀ c ∈ (b ++ w).head?, Tag.isQuote c = false := by
      cases b with
      | nil => exact hw rfl
      | cons d b =>
        rintro _ ⟨⟩
        exact isQuote_of_not_key (isKeyChar_of_breaks d (.inl (hb d List.mem_cons_self)))
    have hsplit : k ++ ([] ++ '=' :: b) ++ w = k ++ '=' :: (b ++ w) := by simp
    rw [hsplit, readAttributes_unquoted o hne hk hbehind, readAttributes_blanks _ hb]
    congr 1
    simp only [width_append, width, List.nil_append]
    omega
  | cons d a =>
    have hloose : Loose (d :: a ++ '=' :: (b ++ w)) := loose_cons (.inl (ha d List.mem_cons_self))
    have hsplit : k ++ (d :: a ++ '=' :: b) ++ w = k ++ (d :: a ++ '=' :: (b ++ w)) := by simp
    rw [hsplit, readAttributes_bare o hne hk hloose, readAttributes_blanks _ ha,
      readAttributes_stray _ (.inl rfl), readAttributes_blanks _ hb]
    congr 1
    simp only [width_append, width]
    omega

theorem readAttributes_key (o : Nat) {k w t : List Char} (hne : k ≠ [])
    (hk : ∀ d ∈ k, Tag.isKeyChar d = true) (hw : ∀ d ∈ w.head?, Tag.isKeyChar d = false)
    (hcalm : Calm w) (ht : Loose t) :
    ∃ u v, k ++ w = u ++ v ∧ u ≠ [] ∧
      readAttributes o (k ++ w ++ t) = readAttributes (o + width u) (v ++ t) := by
  rw [List.append_assoc]
  cases w with
  | nil => exact ⟨k, [], rfl, hne, readAttributes_bare o hne hk ht⟩
  | cons c w =>
    by_cases hc : c = '='
    · subst hc
      have hmark : ∀ d ∈ (w ++ t).head?, Tag.isQuote d = false := by
        cases w with
        | nil => exact fun d hd => isQuote_of_not_key (ht d hd).1
        | cons d w =>
          rintro _ ⟨⟩
          exact calm_iff.1 hcalm [] d w rfl
      exact ⟨k ++ ['='], w, by simp, by simp, readAttributes_unquoted o hne hk hmark⟩
    · refine ⟨k, c :: w, rfl, hne, readAttributes_bare o hne hk ?_⟩
      rintro _ ⟨⟩
      exact ⟨hw c rfl, hc⟩

theorem readAttributes_calm (o : Nat) {v t : List Char} (hv : '>' ∉ v) (hcalm : Calm v)
    (ht : Loose t) : readAttributes o (v ++ t) = readAttributes (o + width v) t := by
  induction hn : v.length using Nat.strongRecOn generalizing o v with
  | ind n ih =>
    subst hn
    cases v with
    | nil => rfl
    | cons c v =>
      -- one turn takes something off the front
      obtain ⟨u, w, hsplit, hu, hturn⟩ : ∃ u w, c :: v = u ++ w ∧ u ≠ [] ∧
          readAttributes o (c :: v ++ t) = readAttributes (o + width u) (w ++ t) := by
        by_cases hgap : isGap c = true
        · exact ⟨[c], v, rfl, by simp, readAttributes_gap (u := [c]) o (by simpa using hgap) (v ++ t)⟩
        by_cases hsign : c = '='
        · exact ⟨[c], v, rfl, by simp, readAttributes_stray o (.inl hsign) (v ++ t)⟩
        have hend : c ≠ '>' := fun h => hv (by simp [h])
        have hc : Tag.isKeyChar c = true := by
          simp only [isGap, Bool.or_eq_true, beq_iff_eq, not_or, Bool.not_eq_true] at hgap
          simp [Tag.isKeyChar, hgap, hsign, hend]
        have hrun := List.takeWhile_append_dropWhile (p := Tag.isKeyChar) (l := c :: v)
        obtain ⟨u, w, huw, hu, hturn⟩ :=
          readAttributes_key o (k := (c :: v).takeWhile Tag.isKeyChar)
            (w := (c :: v).dropWhile Tag.isKeyChar) (by simp [hc])
            (fun _ hd => List.mem_takeWhile_imp hd) (fun _ => Tag.head?_dropWhile)
            (Calm.of_append (hrun.symm ▸ hcalm)) ht
        rw [hrun] at huw hturn
        exact ⟨u, w, huw, hu, hturn⟩
      have hlen := List.length_pos_iff.2 hu
      rw [hsplit] at hv hcalm
      rw [hturn, hsplit, width_append, ← Nat.add_assoc]
      exact ih w.length (by simp [hsplit]; omega) _ (fun h => hv (List.mem_append_right u h))
        hcalm.of_append rfl

theorem loose_of_isValueChar {t : List Char} (ht : ∀ c ∈ t.head?, Tag.isValueChar c = false) :
    Loose t := by
  cases t with
  | nil => simp [Loose]
  | cons c t =>
    have hc : isBlank c = true ∨ c = '>' := by
      simpa [Tag.isValueChar, or_iff_not_imp_left] using ht c rfl
    exact loose_cons (hc.imp_right .inl)

/-- An even stretch is read, and its value kept if it is an expression. -/
theorem readAttributes_meets (o : Nat) {s r : List Char} {p : Stretch} (h : Meets s p r)
    (hp : Passed r p) :
    readAttributes o s =
      ((found? o p).toList ++ (readAttributes (o + width p.print) r).1,
        (readAttributes (o + width p.print) r).2) := by
  cases h with
  | gap hne hu => exact readAttributes_blanks o hu r
  | stray hc => exact readAttributes_stray o hc r
  | bare hne hk ht => exact readAttributes_bare o hne hk ht
  | @plain k sign v _ hne hk hsign hv hmark ht =>
    have hend : '>' ∉ v := fun h => absurd (hv '>' h) (by decide)
    rw [List.append_assoc, readAttributes_sign o hne hk hsign fun _ => hmark,
      readAttributes_calm _ hend hp (loose_of_isValueChar ht), Nat.add_assoc, ← width_append]
    rfl
  | @quoted k sign v _ q hne hk hsign hq hv =>
    by_cases htight : sign = ['=']
    · subst htight
      have hsplit : k ++ ['='] ++ q :: v ++ q :: r = k ++ '=' :: q :: (v ++ q :: r) := by simp
      have hprint : (Stretch.quoted k ['='] q v).print = k ++ '=' :: q :: v ++ [q] := by
        simp [Stretch.print]
      have hwidth : o + width (k ++ ['='] ++ [q]) = o + width k + 2 := by
        have he : '='.utf8Size = 1 := rfl
        simp only [width_append, width, utf8Size_of_isQuote hq, he]
        omega
      rw [hsplit, readAttributes_quoted o hne hk hq hv, hprint, found?, hwidth]
      by_cases he : Bound k ∧ Visible v <;> simp [he]
    · obtain ⟨hend, hcalm, hloose⟩ := hp.resolve_left htight
      have hsplit : k ++ sign ++ q :: v ++ q :: r = k ++ sign ++ (q :: v ++ [q] ++ r) := by simp
      have hq' : q ≠ '>' := by
        rintro rfl
        contradiction
      have hend' : '>' ∉ q :: v ++ [q] := by simp [hend, hq'.symm]
      have hprint : (Stretch.quoted k sign q v).print = k ++ sign ++ (q :: v ++ [q]) := by
        simp [Stretch.print]
      rw [hsplit, readAttributes_sign o hne hk hsign fun h => absurd h htight,
        readAttributes_calm _ hend' hcalm hloose, Nat.add_assoc, ← width_append, ← hprint]
      simp [found?, htight]

theorem loose_of_separates {s r : List Char} {p : Stretch} (h : Meets s p r) (hp : Separates p) :
    Loose s := by
  cases h with
  | gap hne hu =>
    obtain ⟨c, u, rfl⟩ := List.exists_cons_of_ne_nil hne
    exact loose_cons (.inl (hu c List.mem_cons_self))
  | stray => exact loose_cons (.inr (.inr hp))
  | bare | plain | quoted => exact hp.elim

theorem Even.of_cons {p : Stretch} {before after : List Stretch} (h : Even (p :: before)) {r : List Char}
    (hr : Tag.stretches r = before ++ after) : Passed r p ∧ Even before := by
  cases p with
  | gap | stray | bare => exact ⟨trivial, h⟩
  | plain => exact h
  | quoted key sign mark value =>
    refine ⟨h.1.imp_right fun ⟨hend, hcalm, q, hq, hsep⟩ => ⟨hend, hcalm, ?_⟩, h.2⟩
    obtain ⟨ps, rfl⟩ := List.head?_eq_some_iff.1 (Option.mem_def.1 hq)
    obtain ⟨w, hmeets, -⟩ := Tag.meets_of_stretches hr
    exact loose_of_separates hmeets hsep

/-- Behind even stretches the readers are side by side. -/
theorem readAttributes_stretches (o : Nat) {s : List Char} {before after : List Stretch}
    (h : Tag.stretches s = before ++ after) (heven : Even before) :
    ∃ t, Tag.stretches t = after ∧
      ∀ e ∈ (readAttributes (o + width (before.flatMap Stretch.print)) t).1,
        e ∈ (readAttributes o s).1 := by
  induction before generalizing o s with
  | nil => exact ⟨s, h, fun _ he => he⟩
  | cons p before ih =>
    obtain ⟨r, hmeets, hrest⟩ := Tag.meets_of_stretches h
    obtain ⟨hpassed, heven'⟩ := heven.of_cons hrest
    obtain ⟨t, ht, hmem⟩ := ih (o + width p.print) hrest heven'
    refine ⟨t, ht, fun e he => ?_⟩
    rw [readAttributes_meets o hmeets hpassed]
    rw [List.flatMap_cons, width_append, ← Nat.add_assoc] at he
    exact List.mem_append_right _ (hmem e he)

/-- The text ends in opening braces, or in a key, an equals sign and a mark without blanks. -/
def Led (p : List Char) : Prop :=
  ['{', '{'] <:+ p ∨
    ∃ u c q, Tag.isKeyChar c = true ∧ Tag.isQuote q = true ∧ p = u ++ [c, '=', q]

def Introduced (o : Nat) (s : List Char) (e : Excerpt) : Prop :=
  ∃ p q, s = p ++ e.text ++ q ∧ e.start = o + width p ∧ Led p

theorem Introduced.prepend {o : Nat} {s : List Char} {e : Excerpt} (u : List Char)
    (h : Introduced (o + width u) s e) : Introduced o (u ++ s) e := by
  obtain ⟨p, q, rfl, hstart, hled⟩ := h
  refine ⟨u ++ p, q, by simp, by rw [hstart, width_append, Nat.add_assoc], ?_⟩
  rcases hled with hbraces | ⟨v, c, m, hc, hm, rfl⟩
  · exact .inl (hbraces.trans (List.suffix_append u p))
  · exact .inr ⟨u ++ v, c, m, hc, hm, by simp⟩

theorem Introduced.of_suffix {o o' : Nat} {s r : List Char} {e : Excerpt} (hr : r <:+ s)
    (ho : o' = o + (width s - width r)) (h : Introduced o' r e) : Introduced o s e := by
  obtain ⟨p, rfl⟩ := hr
  rw [width_append, Nat.add_sub_cancel] at ho
  exact Introduced.prepend p (ho ▸ h)

theorem introduced_readAttribute {o : Nat} {c : Char} {s : List Char} {e : Excerpt}
    (h : e ∈ (readAttribute o c s).1) : Introduced o (c :: s) e := by
  have hs := List.takeWhile_append_dropWhile (p := Tag.isKeyChar) (l := s)
  have hkeys : ∀ d ∈ s.takeWhile Tag.isKeyChar, Tag.isKeyChar d = true :=
    fun _ hd => List.mem_takeWhile_imp hd
  unfold readAttribute at h
  generalize s.takeWhile Tag.isKeyChar = k at *
  split at h
  · next hc =>
    split at h
    · next q t hd =>
      rw [hd] at hs
      split at h
      · next hq =>
        split at h
        · next v r hv =>
          simp only [Option.mem_def, Option.ite_none_right_eq_some, Option.some.injEq] at h
          obtain ⟨-, rfl⟩ := h
          obtain ⟨u, d, hud⟩ := (List.eq_nil_or_concat (c :: k)).resolve_left (List.cons_ne_nil c k)
          have hdkey : Tag.isKeyChar d = true := by
            have hmem : d ∈ c :: k := by simp [hud]
            rcases List.mem_cons.1 hmem with rfl | hmem
            · exact hc
            · exact hkeys d hmem
          refine ⟨c :: k ++ ['=', q], q :: r, by simp [← hs, eq_of_cut? hv], ?_, ?_⟩
          · have he : '='.utf8Size = 1 := rfl
            simp only [width_append, width, utf8Size_of_isQuote hq, he]
            omega
          · exact .inr ⟨u, d, q, hdkey, hq, by rw [hud]; simp⟩
        · simp at h
      · simp at h
    · simp at h
    · simp at h
  · simp at h

theorem introduced_readAttributes {o : Nat} {s : List Char} {e : Excerpt}
    (h : e ∈ (readAttributes o s).1) : Introduced o s e := by
  fun_induction readAttributes o s with
  | case1 o s hs => simp at h
  | case2 o s t hs => simp at h
  | case3 o s c t hs hc o₁ a p ih =>
    obtain ⟨u, hu, -⟩ := stands_readAttribute o₁ c t
    have hsplit := List.takeWhile_append_dropWhile (p := isGap) (l := s)
    rw [hs] at hsplit
    rw [← hsplit]
    refine Introduced.prepend _ ?_
    rcases List.mem_append.1 h with h | h
    · exact introduced_readAttribute (Option.mem_toList.1 h)
    · exact (ih h).of_suffix ⟨u, hu.symm⟩ rfl

theorem introduced_expressionsFrom {o : Nat} {s : List Char} {e : Excerpt}
    (h : e ∈ expressionsFrom o s) : Introduced o s e := by
  fun_induction expressionsFrom o s with
  | case1 o => simp at h
  | case2 o t c r hc ih =>
    have hs : '<' :: '!' :: '-' :: '-' :: t = ('<' :: c ++ ['-', '-', '>']) ++ r := by
      simp [eq_of_cut? hc]
    have hw : o + width ('<' :: c ++ ['-', '-', '>']) = o + 1 + width c + 3 := by
      simp [width, Char.utf8Size]
      omega
    rw [hs]
    exact Introduced.prepend _ (hw ▸ ih h)
  | case3 o t => simp at h
  | case4 o t x r hc ih =>
    have hs : '{' :: '{' :: t = ['{', '{'] ++ x ++ ['}', '}'] ++ r := by simp [eq_of_cut? hc]
    have hw : o + width (['{', '{'] ++ x ++ ['}', '}']) = o + 2 + width x + 2 := by
      simp [width, Char.utf8Size]
      omega
    rcases List.mem_append.1 h with h | h
    · obtain rfl : e = ⟨o + 2, x⟩ := by
        split at h
        · simp at h
        · exact List.mem_singleton.1 h
      exact ⟨['{', '{'], ['}', '}'] ++ r, by simp [hs], rfl, .inl List.suffix_rfl⟩
    · rw [hs]
      exact Introduced.prepend _ (hw ▸ ih h)
  | case5 o t => simp at h
  | case6 o c t _ hc name p ih =>
    have hn := List.takeWhile_append_dropWhile (p := isTagChar) (l := c :: t)
    obtain ⟨u, hu, -⟩ := stands_readAttributes (o + 1 + width name) ((c :: t).dropWhile isTagChar)
    rcases List.mem_append.1 h with h | h
    · have hlt : o + width ('<' :: name) = o + 1 + width name := by
        simp only [width, Nat.add_assoc]
        rfl
      have hs : '<' :: c :: t = '<' :: name ++ (c :: t).dropWhile isTagChar := by
        rw [List.cons_append, hn]
      rw [hs]
      exact Introduced.prepend _ (hlt ▸ introduced_readAttributes h)
    · refine (ih h).of_suffix ⟨'<' :: name ++ u, ?_⟩ rfl
      rw [List.append_assoc, ← hu, List.cons_append, hn]
  | case7 o c t _ hc ih => exact Introduced.prepend ['<'] (ih h)
  | case8 o c t _ _ _ ih => exact Introduced.prepend [c] (by simpa [width] using ih h)

/-- A mark behind a sign leads to an expression only if the sign has no blanks. -/
theorem sign_of_led {u sign : List Char} {q : Char} (hsign : IsSign sign) (hq : Tag.isQuote q = true)
    (h : Led (u ++ sign ++ [q])) : sign = ['='] := by
  obtain ⟨a, b, rfl, ha, hb⟩ := hsign
  -- no mark is a brace; a blank would stand where the key ends or where the equals sign is
  rcases h with ⟨v, hv⟩ | ⟨v, c, m, hc, hm, hv⟩
  · have hend : v ++ ['{'] ++ ['{'] = u ++ (a ++ '=' :: b) ++ [q] := by rw [← hv]; simp
    obtain rfl : '{' = q := (List.cons.inj (List.append_inj' hend rfl).2).1
    contradiction
  · rcases List.eq_nil_or_concat b with rfl | ⟨b, d, rfl⟩
    · rcases List.eq_nil_or_concat a with rfl | ⟨a, d, rfl⟩
      · rfl
      · have hend : u ++ a ++ [d, '=', q] = v ++ [c, '=', m] := by simpa using hv
        obtain rfl : d = c := (List.cons.inj (List.append_inj' hend rfl).2).1
        exact absurd ((isBlank_of_isKeyChar hc).symm.trans (ha d (by simp))) Bool.false_ne_true
    · have hend : u ++ a ++ '=' :: b ++ [d, q] = v ++ [c] ++ ['=', m] := by simpa using hv
      obtain rfl : d = '=' := (List.cons.inj (List.append_inj' hend rfl).2).1
      have hd := hb '=' (by simp)
      contradiction

theorem isTagChar_of_isNameChar {c : Char} (h : Tag.isNameChar c = true) : isTagChar c = true := by
  cases hn : isTagChar c with
  | true => rfl
  | false =>
    simp only [isTagChar, Bool.not_eq_false', Bool.or_eq_true, beq_iff_eq] at hn
    rcases hn with (hb | rfl) | rfl
    · rw [isNameChar_of_breaks c (.inl hb)] at h
      contradiction
    · contradiction
    · contradiction

/-- Where the name ends for both, both begin to read attributes at one place. -/
theorem readAttributes_subset {s r : List Char} {t : Tag} (h : Tag.read? s = some (t, r))
    (hname : NameEnds s) :
    ∀ e ∈ (readAttributes (width ('<' :: Tag.writtenName s)) (Tag.behindName s)).1,
      e ∈ expressionsFrom 0 s := by
  obtain ⟨-, ⟨c, u, rfl, hc⟩, -⟩ := Tag.read?_eq_some h
  obtain ⟨htake, hdrop⟩ := takeWhile_append (p := isTagChar)
    (u := (c :: u).takeWhile Tag.isNameChar)
    (fun d hd => isTagChar_of_isNameChar (List.mem_takeWhile_imp hd)) hname
  rw [Tag.behindName, List.drop_one, List.tail_cons, List.takeWhile_append_dropWhile] at htake hdrop
  have hwidth : 0 + 1 + width ((c :: u).takeWhile Tag.isNameChar) =
      width ('<' :: Tag.writtenName ('<' :: c :: u)) := by
    rw [Nat.zero_add]
    rfl
  rw [expressionsFrom_tag 0 hc, htake, hdrop, hwidth]
  exact fun e he => List.mem_append_left _ he

/-- The quoted value of a bound attribute is found if its sign has no blanks and the readers are side
by side, and not found if the sign has blanks. -/
theorem quoted_value_found {s r : List Char} {t : Tag} (h : Tag.read? s = some (t, r)) :
    s = '<' :: Tag.writtenName s ++
        ((Tag.met s).flatMap Stretch.print ++ (Opening.ending t.selfClosing ++ r)) ∧
      t.attrs = .ofList ((Tag.met s).filterMap Stretch.pair?) ∧
      ∀ before key sign mark value after,
        Tag.met s = before ++ .quoted key sign mark value :: after → Bound key → Visible value →
        let lead := '<' :: Tag.writtenName s ++ before.flatMap Stretch.print ++ key ++ sign ++ [mark]
        let range : Span := ⟨width lead, width lead + width value⟩
        (NameEnds s → Even before → sign = ['='] →
            range ∈ (expressions (.ofList s)).map Excerpt.span) ∧
          (sign ≠ ['='] → range ∉ (expressions (.ofList s)).map Excerpt.span) := by
  obtain ⟨htext, hbag⟩ := Tag.read?_met h
  refine ⟨htext, hbag, ?_⟩
  intro before key sign mark value after hmet hbound hvisible lead range
  rw [expressions, String.toList_ofList]
  constructor
  · intro hname heven hsign
    subst hsign
    obtain ⟨u, hu, hmem⟩ :=
      readAttributes_stretches (width ('<' :: Tag.writtenName s)) hmet heven
    obtain ⟨w, hmeets, -⟩ := Tag.meets_of_stretches hu
    have hfound : ⟨width lead, value⟩ ∈ expressionsFrom 0 s := by
      refine readAttributes_subset h hname _ (hmem _ ?_)
      rw [readAttributes_meets _ hmeets (.inl rfl), found?, if_pos ⟨rfl, hbound, hvisible⟩]
      refine List.mem_append_left _ ?_
      simp only [lead, Option.toList_some, List.mem_singleton, Excerpt.mk.injEq, and_true,
        width_append]
      omega
    exact List.mem_map.2 ⟨_, hfound, rfl⟩
  · intro hsign hfound
    obtain ⟨e, he, hspan⟩ := List.mem_map.1 hfound
    have hstart : e.start = width lead := congrArg Span.start hspan
    obtain ⟨p, q, hs, hp, hled⟩ := introduced_expressionsFrom he
    obtain ⟨u, w, hwhole, hmeets⟩ := Tag.read?_stretch h hmet
    obtain ⟨hblanks, hmark⟩ : IsSign sign ∧ Tag.isQuote mark = true := by
      cases hmeets
      exact ⟨‹_›, ‹_›⟩
    rw [hmeets.eq_append] at hwhole
    -- what is found there stands behind the text that leads to the value, and this one has blanks
    have hsame : p ++ (e.text ++ q) = lead ++ (value ++ mark :: w) := by
      rw [← List.append_assoc, ← hs]
      exact hwhole.trans (by simp [Stretch.print, lead])
    have hlead : p = lead := eq_of_width_eq hsame (by omega)
    exact hsign (sign_of_led hblanks hmark (hlead ▸ hled))

/-- A sign with blanks hides its own value, and not the value of a later attribute. -/
theorem quoted_value_found_spaced :
    Tag.read? "<a :x = \"y\">".toList = some (⟨"a", .ofList [(":x", "y")], false⟩, []) ∧
      (⟨9, 10⟩ : Span) ∉ (expressions "<a :x = \"y\">").map Excerpt.span ∧
      (⟨15, 16⟩ : Span) ∈ (expressions "<a b = \"c\" :x=\"y\">").map Excerpt.span := by
  have hread : Tag.read? "<a :x = \"y\">".toList =
      some (⟨"a", .ofList [(":x", "y")], false⟩, []) := by decide +kernel
  have hmet : Tag.met "<a :x = \"y\">".toList =
      [.gap [' ']] ++ .quoted [':', 'x'] [' ', '=', ' '] '"' ['y'] :: [] := by decide +kernel
  have hread' : Tag.read? "<a b = \"c\" :x=\"y\">".toList =
      some (⟨"a", .ofList [("b", "c"), (":x", "y")], false⟩, []) := by decide +kernel
  have hmet' : Tag.met "<a b = \"c\" :x=\"y\">".toList =
      [.gap [' '], .quoted ['b'] [' ', '=', ' '] '"' ['c'], .gap [' ']] ++
        .quoted [':', 'x'] ['='] '"' ['y'] :: [] := by decide +kernel
  refine ⟨hread, ?_, ?_⟩
  · exact ((quoted_value_found hread).2.2 _ _ _ _ _ _ hmet (by decide) (by decide)).2 (by decide)
  · refine ((quoted_value_found hread').2.2 _ _ _ _ _ _ hmet' (by decide) (by decide)).1 ?_ ?_ rfl
    · rintro _ ⟨⟩
      rfl
    · exact ⟨.inr ⟨by decide, by decide, .gap [' '], rfl, trivial⟩, trivial⟩

end BlockLens.Template
