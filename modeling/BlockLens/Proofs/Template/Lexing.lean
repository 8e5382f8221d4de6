import Mathlib.Data.List.Induction
import BlockLens.Proofs.Text
import BlockLens.Template.Identifiers
/-!
The free identifiers of an expression by its tokens. A token is told by its spelling and is as long
as it can be, so that every text has one division into tokens. A word is free unless it belongs to
the language or is accessed as a member; the reader knows an access by the last character before
the word, takes three dots for one, and misses the words that are spread.
-/

set_option autoImplicit false

namespace BlockLens.Template

open Text

inductive Atom where
  | quoted (s : List Char)
  | number (s : List Char)
  | word (s : List Char)
  | spread
  | chain
  | sign (c : Char)
  deriving DecidableEq, Repr

/-- What follows the mark `q` of a string literal, up to the mark that closes it (`true`) or to the
end of the text (`false`). -/
inductive Literal (q : Char) : Bool → List Char → Prop
  | closed : Literal q true [q]
  | ended : Literal q false []
  | hidden : Literal q false ['\\']
  | plain {b : Bool} {c : Char} {s : List Char} (hq : c ≠ q) (hc : c ≠ '\\') (h : Literal q b s) :
      Literal q b (c :: s)
  | escaped {b : Bool} (c : Char) {s : List Char} (h : Literal q b s) : Literal q b ('\\' :: c :: s)

def Stops (p : Char → Bool) (r : List Char) : Prop := ∀ c ∈ r.head?, p c = false

namespace Atom

def text : Atom → List Char
  | quoted s | number s | word s => s
  | spread => ['.', '.', '.']
  | chain => ['?', '.']
  | sign c => [c]

/-- The token can stand before the text `r` and is not part of a longer one. -/
def Fits (r : List Char) : Atom → Prop
  | quoted s => ∃ q t b, s = q :: t ∧ isStringMark q = true ∧ Literal q b t ∧ (b = false → r = [])
  | number s => ∃ c t, s = c :: t ∧ c.isDigit = true ∧ (∀ d ∈ t, isNumberChar d = true) ∧
      Stops isNumberChar r
  | word s => ∃ c t, s = c :: t ∧ isWordStart c = true ∧ (∀ d ∈ t, isWordChar d = true) ∧
      Stops isWordChar r
  | spread | chain => True
  | sign c => isStringMark c = false ∧ c.isDigit = false ∧ isWordStart c = false ∧
      (c = '.' → ∀ t, r ≠ '.' :: '.' :: t) ∧ (c = '?' → ∀ t, r ≠ '.' :: t)

def isGap : Atom → Bool
  | sign c => isBlank c
  | _ => false

def isAccess : Atom → Bool
  | chain => true
  | sign c => c == '.'
  | _ => false

def lexemes : Atom → List Lexeme
  | quoted s => [.quoted s]
  | number s => [.number s]
  | word s => [.word s]
  | spread => [.mark '.', .mark '.', .mark '.']
  | chain => [.mark '?', .mark '.']
  | sign c => [.mark c]

end Atom

/-- The tokens of a text, each as long as it can be. -/
inductive Divides : List Char → List Atom → Prop
  | nil : Divides [] []
  | cons {a : Atom} {r : List Char} {as : List Atom} (ha : a.Fits r) (h : Divides r as) :
      Divides (a.text ++ r) (a :: as)

def before (us : List Atom) : Option Atom := (us.filter fun a => !a.isGap).getLast?

/-- A word behind the tokens `us` names a member of the component. -/
def Free (us : List Atom) (w : List Char) : Prop :=
  reserved.contains (String.ofList w) = false ∧ ∀ a ∈ before us, a.isAccess = false

instance (us : List Atom) (w : List Char) : Decidable (Free us w) :=
  inferInstanceAs (Decidable (_ ∧ _))

theorem Divides.fits {us vs : List Atom} {a : Atom} {s : List Char}
    (h : Divides s (us ++ a :: vs)) : ∃ r, a.Fits r := by
  induction us generalizing s with
  | nil =>
    cases h with
    | cons ha h => exact ⟨_, ha⟩
  | cons u us ih =>
    cases h with
    | cons hu h => exact ih h

theorem literal_closeQuote (q : Char) (s : List Char) :
    ∃ b, Literal q b (closeQuote q s).1 ∧ (b = false → (closeQuote q s).2 = []) := by
  fun_induction closeQuote q s with
  | case1 => exact ⟨false, .ended, fun _ => rfl⟩
  | case2 s => exact ⟨true, .closed, by simp⟩
  | case3 hq => exact ⟨false, .hidden, fun _ => rfl⟩
  | case4 d t hq ih =>
    obtain ⟨b, hb, hr⟩ := ih
    exact ⟨b, .escaped _ hb, hr⟩
  | case5 c s hq hc ih =>
    obtain ⟨b, hb, hr⟩ := ih
    exact ⟨b, .plain hq hc hb, hr⟩

theorem Literal.closeQuote_append {q : Char} {b : Bool} {s : List Char} (h : Literal q b s)
    (hq : q ≠ '\\') {r : List Char} (hr : b = false → r = []) :
    closeQuote q (s ++ r) = (s, r) := by
  induction h with
  | closed =>
    unfold closeQuote
    simp
  | ended => simp [hr rfl, closeQuote]
  | hidden =>
    unfold closeQuote
    simp [hr rfl, hq.symm]
  | plain hne hc h ih =>
    unfold closeQuote
    simp [hne, hc, ih hr]
  | escaped c h ih =>
    unfold closeQuote
    simp [hq.symm, ih hr]

theorem Stops.takeWhile_append {p : Char → Bool} {t r : List Char} (hr : Stops p r)
    (ht : ∀ c ∈ t, p c = true) : (t ++ r).takeWhile p = t ∧ (t ++ r).dropWhile p = r := by
  have hnone : r.takeWhile p = [] ∧ r.dropWhile p = r := by
    cases r with
    | nil => exact ⟨rfl, rfl⟩
    | cons c r =>
      have hc := hr c (by simp)
      simp [hc]
  rw [List.takeWhile_append_of_pos ht, List.dropWhile_append_of_pos ht, hnone.1, hnone.2]
  exact ⟨List.append_nil t, rfl⟩

theorem stops_dropWhile (p : Char → Bool) (s : List Char) : Stops p (s.dropWhile p) := by
  intro c hc
  have h := List.head?_dropWhile_not p s
  rw [Option.mem_def.1 hc] at h
  simpa using h

theorem ne_backslash_of_isStringMark {q : Char} (h : isStringMark q = true) : q ≠ '\\' := by
  rintro rfl
  exact absurd h (by decide)

theorem isWordChar_of_isWordStart {c : Char} (h : isWordStart c = true) : isWordChar c = true := by
  simp only [isWordStart, Bool.or_eq_true] at h
  simp only [isWordChar, Char.isAlphanum, Bool.or_eq_true]
  tauto

theorem isWordChar_of_isDigit {c : Char} (h : c.isDigit = true) : isWordChar c = true := by
  simp [isWordChar, Char.isAlphanum, h]

theorem not_isStringMark_of_isWordChar {c : Char} (h : isWordChar c = true) :
    isStringMark c = false := by
  cases hm : isStringMark c with
  | false => rfl
  | true =>
    simp only [isStringMark, Bool.or_eq_true, beq_iff_eq] at hm
    rcases hm with (rfl | rfl) | rfl <;> exact absurd h (by decide)

theorem not_isDigit_of_isWordStart {c : Char} (h : isWordStart c = true) : c.isDigit = false := by
  cases hd : c.isDigit with
  | false => rfl
  | true =>
    have hlt := toNat_lt_of_isAlphanum (c := c) (by simp [Char.isAlphanum, hd])
    have hstart : c.isDigit = true → isWordStart c = false :=
      of_toNat_lt (P := fun c => c.isDigit = true → isWordStart c = false) (by decide) hlt
    exact absurd h (by simp [hstart hd])

/-- A token at the front of a text is read by itself. -/
theorem Atom.Fits.lexemes_append {a : Atom} {r : List Char} (h : a.Fits r) :
    Template.lexemes (a.text ++ r) = a.lexemes ++ Template.lexemes r := by
  cases a with
  | quoted s =>
    obtain ⟨q, t, b, rfl, hq, ht, hr⟩ := h
    have hclose := ht.closeQuote_append (ne_backslash_of_isStringMark hq) hr
    rw [text, List.cons_append, Template.lexemes]
    simp only [hq, if_true, hclose]
    rfl
  | number s =>
    obtain ⟨c, t, rfl, hc, ht, hr⟩ := h
    obtain ⟨htake, hdrop⟩ := hr.takeWhile_append ht
    rw [text, List.cons_append, Template.lexemes]
    simp only [not_isStringMark_of_isWordChar (isWordChar_of_isDigit hc), hc, htake, hdrop,
      Bool.false_eq_true, if_false, if_true]
    rfl
  | word s =>
    obtain ⟨c, t, rfl, hc, ht, hr⟩ := h
    obtain ⟨htake, hdrop⟩ := hr.takeWhile_append ht
    rw [text, List.cons_append, Template.lexemes]
    simp only [not_isStringMark_of_isWordChar (isWordChar_of_isWordStart hc),
      not_isDigit_of_isWordStart hc, hc, htake, hdrop, Bool.false_eq_true, if_false, if_true]
    rfl
  | spread => simp [text, Atom.lexemes, Template.lexemes, isStringMark, isWordStart]
  | chain => simp [text, Atom.lexemes, Template.lexemes, isStringMark, isWordStart]
  | sign c =>
    obtain ⟨h₁, h₂, h₃, -⟩ := h
    rw [text, List.cons_append, List.nil_append, Template.lexemes]
    simp only [h₁, h₂, h₃, Bool.false_eq_true, if_false]
    rfl

theorem Divides.lexemes {s : List Char} {as : List Atom} (h : Divides s as) :
    lexemes s = as.flatMap Atom.lexemes := by
  induction h with
  | nil => simp [Template.lexemes]
  | cons ha h ih => rw [ha.lexemes_append, ih, List.flatMap_cons]

theorem Atom.Fits.text_ne_nil {a : Atom} {r : List Char} (h : a.Fits r) : a.text ≠ [] := by
  cases a with
  | quoted s | number s | word s =>
    obtain ⟨c, t, h⟩ := h
    simp_all [Atom.text]
  | spread | chain | sign c => simp [Atom.text]

theorem exists_atom (c : Char) (t : List Char) :
    ∃ (a : Atom) (r : List Char), c :: t = a.text ++ r ∧ a.Fits r := by
  cases hm : isStringMark c with
  | true =>
    obtain ⟨b, hb, hr⟩ := literal_closeQuote c t
    refine ⟨.quoted (c :: (closeQuote c t).1), (closeQuote c t).2, ?_, c, _, b, rfl, hm, hb, hr⟩
    rw [Atom.text, List.cons_append, closeQuote_append]
  | false =>
    cases hd : c.isDigit with
    | true =>
      refine ⟨.number (c :: t.takeWhile isNumberChar), t.dropWhile isNumberChar, ?_, c, _, rfl, hd,
        fun d h => List.all_eq_true.1 List.all_takeWhile d h, stops_dropWhile _ t⟩
      rw [Atom.text, List.cons_append, List.takeWhile_append_dropWhile]
    | false =>
      cases hw : isWordStart c with
      | true =>
        refine ⟨.word (c :: t.takeWhile isWordChar), t.dropWhile isWordChar, ?_, c, _, rfl, hw,
          fun d h => List.all_eq_true.1 List.all_takeWhile d h, stops_dropWhile _ t⟩
        rw [Atom.text, List.cons_append, List.takeWhile_append_dropWhile]
      | false =>
        by_cases hspread : c = '.' ∧ ∃ u, t = '.' :: '.' :: u
        · obtain ⟨rfl, u, rfl⟩ := hspread
          exact ⟨.spread, u, rfl, trivial⟩
        · by_cases hchain : c = '?' ∧ ∃ u, t = '.' :: u
          · obtain ⟨rfl, u, rfl⟩ := hchain
            exact ⟨.chain, u, rfl, trivial⟩
          · exact ⟨.sign c, t, rfl, hm, hd, hw, fun hc u hu => hspread ⟨hc, u, hu⟩,
              fun hc u hu => hchain ⟨hc, u, hu⟩⟩

theorem exists_divides (s : List Char) : ∃ as, Divides s as := by
  induction hn : s.length using Nat.strongRecOn generalizing s with
  | ind n ih =>
    cases s with
    | nil => exact ⟨[], .nil⟩
    | cons c t =>
      obtain ⟨a, r, hs, ha⟩ := exists_atom c t
      have hlen := congrArg List.length hs
      have hpos := List.length_pos_iff.2 ha.text_ne_nil
      rw [List.length_append] at hlen
      obtain ⟨as, has⟩ := ih r.length (by omega) r rfl
      exact ⟨a :: as, hs ▸ .cons ha has⟩

/-- Two tokens that fit at the front of one text are one. -/
theorem Atom.Fits.unique {a b : Atom} {r t : List Char} (ha : a.Fits r) (hb : b.Fits t)
    (h : a.text ++ r = b.text ++ t) : a = b ∧ r = t := by
  have hlex : a.lexemes ++ Template.lexemes r = b.lexemes ++ Template.lexemes t := by
    rw [← ha.lexemes_append, ← hb.lexemes_append, h]
  have hab : a = b := by
    cases a <;> cases b <;>
      simp only [Atom.lexemes, List.cons_append, List.nil_append, List.cons.injEq, reduceCtorEq,
        Lexeme.quoted.injEq, Lexeme.number.injEq, Lexeme.word.injEq, Lexeme.mark.injEq,
        false_and] at hlex
    case quoted.quoted | number.number | word.word | sign.sign => rw [hlex.1]
    case spread.spread | chain.chain => rfl
    case spread.chain | chain.spread => exact absurd hlex.1 (by decide)
    case spread.sign =>
      obtain ⟨rfl, -⟩ := hlex
      exact absurd (List.cons.inj h).2.symm (hb.2.2.2.1 rfl r)
    case chain.sign =>
      obtain ⟨rfl, -⟩ := hlex
      exact absurd (List.cons.inj h).2.symm (hb.2.2.2.2 rfl r)
    case sign.spread =>
      obtain ⟨rfl, -⟩ := hlex
      exact absurd (List.cons.inj h).2 (ha.2.2.2.1 rfl t)
    case sign.chain =>
      obtain ⟨rfl, -⟩ := hlex
      exact absurd (List.cons.inj h).2 (ha.2.2.2.2 rfl t)
  subst hab
  exact ⟨rfl, List.append_cancel_left h⟩

theorem Divides.unique {s : List Char} {as bs : List Atom} (h : Divides s as) (h' : Divides s bs) :
    bs = as := by
  induction h generalizing bs with
  | nil =>
    generalize hs : ([] : List Char) = s at h'
    cases h' with
    | nil => rfl
    | cons hb h' => simp [hb.text_ne_nil] at hs
  | @cons a r as ha h ih =>
    generalize hs : a.text ++ r = s at h'
    cases h' with
    | nil => simp [ha.text_ne_nil] at hs
    | cons hb h' =>
      obtain ⟨rfl, rfl⟩ := ha.unique hb hs
      rw [ih h']

def Atom.step (member : Bool) : Atom → Bool
  | .spread | .chain => true
  | .sign c => if isBlank c then member else c == '.'
  | .quoted _ | .number _ | .word _ => false

theorem step_of_isGap {a : Atom} (h : a.isGap = true) (member : Bool) : a.step member = member := by
  cases a <;> simp_all [Atom.isGap, Atom.step]

theorem step_of_not_isGap {a : Atom} (h : a.isGap = false) (member : Bool) :
    a.step member = (a.isAccess || a == .spread) := by
  cases a <;> simp_all [Atom.isGap, Atom.step, Atom.isAccess]

theorem before_concat (us : List Atom) (a : Atom) :
    before (us ++ [a]) = if a.isGap then before us else some a := by
  cases h : a.isGap <;> simp [before, h]

/-- Only the last token counts that is no blank. -/
theorem foldl_step (us : List Atom) :
    us.foldl Atom.step false = (before us).any fun a => a.isAccess || a == .spread := by
  induction us using List.reverseRecOn with
  | nil => rfl
  | append_singleton us a ih =>
    rw [List.foldl_append, List.foldl_cons, List.foldl_nil, before_concat]
    cases h : a.isGap with
    | true => rw [step_of_isGap h, ih, if_pos rfl]
    | false => rw [step_of_not_isGap h]; rfl

theorem splitFrom_append {a : Atom} (ha : ∀ w, a ≠ .word w) (member : Bool) (gap : List Char)
    (ls : List Lexeme) :
    splitFrom member gap (a.lexemes ++ ls) = splitFrom (a.step member) (gap ++ a.text) ls := by
  cases a with
  | word w => exact absurd rfl (ha w)
  | quoted s | number s | sign c => simp [Atom.lexemes, splitFrom, Atom.step, Atom.text]
  | spread | chain => simp [Atom.lexemes, splitFrom, Atom.step, Atom.text, isBlank]

theorem exists_word_cons {a : Atom} {as : List Atom} {P : List Atom → List Char → Prop} :
    (∃ us w vs, a :: as = us ++ .word w :: vs ∧ P us w) ↔
      (∃ w, a = .word w ∧ P [] w) ∨ ∃ us w vs, as = us ++ .word w :: vs ∧ P (a :: us) w := by
  constructor
  · rintro ⟨us, w, vs, h, hp⟩
    cases us with
    | nil =>
      simp only [List.nil_append, List.cons.injEq] at h
      exact .inl ⟨w, h.1, hp⟩
    | cons u us =>
      simp only [List.cons_append, List.cons.injEq] at h
      obtain ⟨rfl, h⟩ := h
      exact .inr ⟨us, w, vs, h, hp⟩
  · rintro (⟨w, rfl, hp⟩ | ⟨us, w, vs, rfl, hp⟩)
    · exact ⟨[], w, as, rfl, hp⟩
    · exact ⟨a :: us, w, vs, rfl, hp⟩

theorem mem_place_splitFrom (as : List Atom) (member : Bool) (gap : List Char) (o : Nat)
    {e : Excerpt} :
    e ∈ place o (splitFrom member gap (as.flatMap Atom.lexemes)).names ↔
      ∃ us w vs, as = us ++ .word w :: vs ∧
        e = ⟨o + width gap + width (us.flatMap Atom.text), w⟩ ∧
        reserved.contains (String.ofList w) = false ∧ us.foldl Atom.step member = false := by
  induction as generalizing member gap o with
  | nil => simp [splitFrom, place]
  | cons a as ih =>
    rw [List.flatMap_cons, exists_word_cons]
    by_cases ha : ∃ w, a = .word w
    · obtain ⟨w, rfl⟩ := ha
      simp only [Atom.lexemes, List.cons_append, List.nil_append, splitFrom]
      split
      · next hskip =>
        have hnot : ¬ ∃ w', Atom.word w = .word w' ∧
            e = ⟨o + width gap + width (([] : List Atom).flatMap Atom.text), w'⟩ ∧
            reserved.contains (String.ofList w') = false ∧
            ([] : List Atom).foldl Atom.step member = false := by
          rintro ⟨w', hw, -, hr, hm⟩
          cases hw
          rw [List.foldl_nil] at hm
          simp [hm] at hskip
          simp [hskip] at hr
        rw [ih, or_iff_right hnot]
        simp [Atom.text, Atom.step, Nat.add_assoc]
      · next hfree =>
        simp only [Bool.or_eq_true, not_or, Bool.not_eq_true] at hfree
        rw [place, List.mem_cons, ih]
        have hw : String.ofList w ∉ reserved := by simpa using hfree.2
        refine or_congr ?_ ?_
        · simp [hfree.1, hw, width]
        · simp [Atom.text, Atom.step, width, Nat.add_assoc]
    · have hne : ∀ w, a ≠ .word w := fun w h => ha ⟨w, h⟩
      rw [splitFrom_append hne, ih]
      simp [hne, Nat.add_assoc]

theorem le_of_mem_place {o : Nat} {names : List (List Char × List Char)} {e : Excerpt}
    (h : e ∈ place o names) : o ≤ e.start := by
  induction names generalizing o with
  | nil => simp [place] at h
  | cons n names ih =>
    obtain ⟨gap, w⟩ := n
    rcases List.mem_cons.1 h with rfl | h
    · simp
    · have := ih h
      omega

theorem pairwise_place (o : Nat) (names : List (List Char × List Char)) :
    (place o names).Pairwise fun a b => a.span.stop ≤ b.span.start := by
  induction names generalizing o with
  | nil => simp [place]
  | cons n names ih =>
    obtain ⟨gap, w⟩ := n
    exact List.pairwise_cons.2 ⟨fun e he => le_of_mem_place he, ih _⟩

/-- The words behind a spread are the only free ones that are not found. -/
theorem mem_identifiers {expression : String} {as : List Atom}
    (h : Divides expression.toList as) {e : Excerpt} :
    e ∈ identifiers expression ↔
      ∃ us w vs, as = us ++ .word w :: vs ∧ e = ⟨width (us.flatMap Atom.text), w⟩ ∧ Free us w ∧
        before us ≠ some .spread := by
  have hmem := mem_place_splitFrom as false [] 0 (e := e)
  rw [← h.lexemes] at hmem
  rw [identifiers, split, hmem]
  simp only [width, Nat.zero_add, foldl_step, Free]
  refine exists_congr fun us => exists_congr fun w => exists_congr fun vs => ?_
  cases before us with
  | none => simp
  | some a => simp [and_assoc]

theorem text_ne_nil_of_mem_identifiers {expression : String} {e : Excerpt}
    (he : e ∈ identifiers expression) : e.text ≠ [] := by
  obtain ⟨as, has⟩ := exists_divides expression.toList
  obtain ⟨us, w, vs, rfl, rfl, -⟩ := (mem_identifiers has).1 he
  obtain ⟨r, hr⟩ := has.fits
  exact hr.text_ne_nil

/-- Every expression has one division into tokens. The identifiers found in it stand in order, and
are, each at its place, the words that the language does not reserve and that follow no access by a
dot or by a question mark and a dot, but for those that follow a spread. -/
theorem identifiers_exact (expression : String) :
    ∃ as, Divides expression.toList as ∧ (∀ bs, Divides expression.toList bs → bs = as) ∧
      (identifiers expression).Pairwise (fun a b => a.start < b.start) ∧
      ∀ e, e ∈ identifiers expression ↔
        ∃ us w vs, as = us ++ .word w :: vs ∧ e = ⟨width (us.flatMap Atom.text), w⟩ ∧
          Free us w ∧ before us ≠ some .spread := by
  obtain ⟨as, has⟩ := exists_divides expression.toList
  refine ⟨as, has, fun bs => has.unique, ?_, fun e => mem_identifiers has⟩
  refine (pairwise_place 0 _).imp_of_mem fun ha _ hab => ?_
  have hpos := width_pos (text_ne_nil_of_mem_identifiers ha)
  simp only [Excerpt.span] at hab
  omega

/-- A word that is spread is free and is not found. -/
theorem identifiers_exact_spread :
    Divides "...x".toList [.spread, .word ['x']] ∧ Free [.spread] ['x'] ∧
      identifiers "...x" = [] := by
  have hword : Atom.Fits [] (.word ['x']) := by
    refine ⟨'x', [], rfl, by decide, by simp, by simp [Stops]⟩
  have hdivides : Divides "...x".toList [.spread, .word ['x']] :=
    .cons (a := .spread) trivial (.cons hword .nil)
  obtain ⟨as, -, hone, -, hmem⟩ := identifiers_exact "...x"
  refine ⟨hdivides, by decide, List.eq_nil_iff_forall_not_mem.2 fun e he => ?_⟩
  obtain ⟨us, w, vs, has, -, -, hspread⟩ := (hmem e).1 he
  rw [← hone _ hdivides] at has
  match us with
  | [] => simp at has
  | [u] =>
    simp only [List.cons_append, List.nil_append, List.cons.injEq] at has
    obtain ⟨rfl, -⟩ := has
    exact hspread rfl
  | u :: v :: us => simp at has

end BlockLens.Template
