import BlockLens.Proofs.Template.Lexing
import BlockLens.Proofs.Text.Cursor
/-!
The reader of expressions by places. Behind a backslash the scanner passes by one byte, so that
inside a string literal it may stand within a character; it leaves the literal at a mark or behind
the end, and there it stands between characters again.
-/

set_option autoImplicit false

namespace BlockLens.Template

open Text

namespace Scanner

variable (t : List Char)

def literalIn (q : Char) : Nat → Nat → Option Nat
  | 0, _ => none
  | n + 1, i =>
    match charAt? t i with
    | none => some i
    | some c =>
      if c = q then some i
      else if c = '\\' then literalIn q n (i + 2)
      else literalIn q n (i + 1)

/-- The free identifiers from `i` on; `previous` is the last byte that was no blank, with `0` for a
number and `a` for a word. -/
def wordsIn : Nat → Option Char → Nat → Option (List Span)
  | 0, _, _ => none
  | n + 1, previous, i =>
    match charAt? t i with
    | none => some []
    | some c =>
      if isStringMark c then do
        let j ← literalIn t c (turns t) (i + 1)
        wordsIn n (some c) (j + 1)
      else if c.isDigit then do
        let j ← skip? isNumberChar t i
        wordsIn n (some '0') j
      else if isWordStart c then do
        let j ← skip? isWordChar t i
        let w ← slice? t i j
        let later ← wordsIn n (some 'a') j
        return if previous == some '.' || reserved.contains (String.ofList w) then later
          else ⟨i, j⟩ :: later
      else wordsIn n (if isBlank c then previous else some c) (i + 1)

variable {t} {s : List Char}

theorem narrow_isStringMark : Narrow isStringMark := by
  intro c hc
  simp only [isStringMark, Bool.or_eq_true, beq_iff_eq] at hc
  rcases hc with (rfl | rfl) | rfl <;> decide

theorem isWordStart_of_le {c : Char} (hc : 128 ≤ c.toNat) : isWordStart c = true := by
  simp [isWordStart, hc]

theorem isWordChar_of_le {c : Char} (hc : 128 ≤ c.toNat) : isWordChar c = true := by
  simp [isWordChar, hc]

theorem bytewise_isWordStart : Bytewise isWordStart :=
  fun c d hc hd => by rw [isWordStart_of_le hc, isWordStart_of_le hd]

theorem bytewise_isWordChar : Bytewise isWordChar :=
  fun c d hc hd => by rw [isWordChar_of_le hc, isWordChar_of_le hd]

theorem bytewise_isNumberChar : Bytewise isNumberChar :=
  fun c d hc hd => by rw [isNumberChar, isNumberChar, isWordChar_of_le hc, isWordChar_of_le hd]; rfl

theorem isNumberChar_of_isDigit {c : Char} (hc : c.isDigit = true) : isNumberChar c = true := by
  rw [isNumberChar, isWordChar_of_isDigit hc, Bool.true_or]

/-- The bytes of a character are passed by, one turn each. Of a mark and a backslash only the first
byte counts. -/
theorem literalIn_bytes {q c : Char} (hq : q.toNat < 128) (h : c :: s <:+ t) {k : Nat}
    (hfirst : k = 0 → c ≠ q ∧ c ≠ '\\') (hk : k ≤ c.utf8Size) (m : Nat) :
    literalIn t q (m + (c.utf8Size - k)) (offset t (c :: s) + k) = literalIn t q m (offset t s) := by
  induction hn : c.utf8Size - k generalizing k with
  | zero =>
    have hend : k = c.utf8Size := by omega
    rw [hend, offset_utf8Size h, Nat.add_zero]
  | succ n ih =>
    have hnarrow : c.toNat < 128 → k = 0 := by
      intro hc
      have := utf8Size_of_lt hc
      omega
    obtain ⟨d, hd, hne⟩ : ∃ d, charAt? t (offset t (c :: s) + k) = some d ∧ d ≠ q ∧ d ≠ '\\' := by
      obtain ⟨d, hd, hbyte⟩ := charAt?_cons h (show k < c.utf8Size by omega)
      refine ⟨d, hd, ?_⟩
      by_cases hwide : 128 ≤ d.toNat
      · constructor
        · rintro rfl
          omega
        · rintro rfl
          exact absurd hwide (by decide)
      · obtain rfl : d = c := hbyte.resolve_right fun hle => hwide hle.2
        exact hfirst (hnarrow (Nat.lt_of_not_le hwide))
    have hlater := ih (k := k + 1) (by omega) (by omega) (by omega)
    rw [← Nat.add_assoc, literalIn, hd]
    simp only [hne.1, hne.2, if_false]
    exact hlater

/-- The scanner stands at the mark behind which `r` is left, or behind the end if nothing is. -/
def Left (t r : List Char) (j : Nat) : Prop := j + 1 = offset t r ∨ r = [] ∧ width t ≤ j

theorem literalIn_offset {q : Char} (hq : q.toNat < 128) (h : s <:+ t) {n : Nat} (hn : width s < n) :
    ∃ j, literalIn t q n (offset t s) = some j ∧ Left t (closeQuote q s).2 j := by
  obtain ⟨n, rfl⟩ : ∃ m, n = m + 1 := ⟨n - 1, by omega⟩
  fun_induction closeQuote q s generalizing n with
  | case1 =>
    refine ⟨offset t [], ?_, .inr ⟨rfl, Nat.le_of_eq (offset_nil t).symm⟩⟩
    rw [literalIn, charAt?_nil]
  | case2 s =>
    refine ⟨offset t (q :: s), ?_, .inl (offset_cons h hq)⟩
    rw [literalIn, charAt?_of_lt h hq]
    simp only [if_true]
  | case3 hne =>
    have hpos : 0 < width ['\\'] := width_pos (by simp)
    obtain ⟨n, rfl⟩ : ∃ m, n = m + 1 := ⟨n - 1, by omega⟩
    have hplace := offset_cons h (show '\\'.toNat < 128 by decide)
    have hend := offset_nil t
    refine ⟨offset t ['\\'] + 2, ?_, .inr ⟨rfl, by omega⟩⟩
    rw [literalIn, charAt?_of_lt h (by decide)]
    simp only [hne, if_false, if_true]
    rw [literalIn, charAt?_of_le (by omega)]
  | case4 d s hne ih =>
    have hd : d :: s <:+ t := (List.suffix_cons _ _).trans h
    have hpos := d.utf8Size_pos
    have hplace : offset t ('\\' :: d :: s) + 2 = offset t (d :: s) + 1 := by
      rw [← offset_cons h (by decide)]
    simp only [width] at hn
    -- the byte behind the backslash is the first of its character
    obtain ⟨m, rfl⟩ : ∃ m, n = m + 1 + (d.utf8Size - 1) := ⟨n - 1 - (d.utf8Size - 1), by omega⟩
    obtain ⟨j, hj, hleft⟩ := ih ((List.suffix_cons d s).trans hd) m (by omega)
    refine ⟨j, ?_, hleft⟩
    rw [literalIn, charAt?_of_lt h (by decide)]
    simp only [hne, if_false, if_true, hplace, literalIn_bytes hq hd (by simp) hpos, hj]
  | case5 c s hne hslash ih =>
    have hpos := c.utf8Size_pos
    simp only [width] at hn
    obtain ⟨m, hm⟩ : ∃ m, n + 1 = m + 1 + (c.utf8Size - 0) := ⟨n - c.utf8Size, by omega⟩
    obtain ⟨j, hj, hleft⟩ := ih ((List.suffix_cons c s).trans h) m (by omega)
    have hbytes := literalIn_bytes hq h (k := 0) (fun _ => ⟨hne, hslash⟩) (Nat.zero_le _) (m + 1)
    exact ⟨j, by rw [hm, ← Nat.add_zero (offset t (c :: s)), hbytes, hj], hleft⟩

theorem wordsIn_of_le {i : Nat} (h : width t ≤ i) (previous : Option Char) (n : Nat) :
    wordsIn t (n + 1) previous i = some [] := by
  rw [wordsIn, charAt?_of_le h]

theorem wordsIn_left {r : List Char} {j : Nat} (h : Left t r j) (previous : Option Char) (n : Nat) :
    wordsIn t n previous (j + 1) = wordsIn t n previous (offset t r) := by
  rcases h with h | ⟨rfl, h⟩
  · rw [h]
  · cases n with
    | zero => rfl
    | succ n =>
      rw [wordsIn_of_le (by omega), wordsIn_of_le (Nat.le_of_eq (offset_nil t).symm)]

section Turns

variable {c : Char} {u : List Char} (h : c :: u <:+ t) (n : Nat) (previous : Option Char)

include h

theorem wordsIn_quoted (hc : isStringMark c = true) :
    wordsIn t (n + 1) previous (offset t (c :: u)) =
      wordsIn t n (some c) (offset t (closeQuote c u).2) := by
  have hlt := narrow_isStringMark c hc
  have hu : u <:+ t := (List.suffix_cons c u).trans h
  obtain ⟨j, hj, hleft⟩ := literalIn_offset hlt hu (width_lt_turns hu)
  rw [wordsIn, charAt?_of_lt h hlt, offset_cons h hlt]
  simp only [hc, if_true, hj, bind, Option.bind_some, wordsIn_left hleft]

theorem wordsIn_number (hc : c.isDigit = true) :
    wordsIn t (n + 1) previous (offset t (c :: u)) =
      wordsIn t n (some '0') (offset t (u.dropWhile isNumberChar)) := by
  have hskip := bytewise_isNumberChar.skip? h
  rw [List.dropWhile_cons, if_pos (isNumberChar_of_isDigit hc)] at hskip
  rw [wordsIn, charAt?_of_lt h (narrow_isDigit c hc)]
  simp only [not_isStringMark_of_isWordChar (isWordChar_of_isDigit hc), hc, Bool.false_eq_true,
    if_false, if_true, hskip, bind, Option.bind_some]

theorem wordsIn_word (hc : isWordStart c = true) :
    wordsIn t (n + 1) previous (offset t (c :: u)) =
      (wordsIn t n (some 'a') (offset t (u.dropWhile isWordChar))).map fun later =>
        if previous == some '.' || reserved.contains (String.ofList (c :: u.takeWhile isWordChar)) then
          later
        else ⟨offset t (c :: u), offset t (u.dropWhile isWordChar)⟩ :: later := by
  have hskip := bytewise_isWordChar.skip? h
  have hslice := slice?_dropWhile isWordChar h
  rw [List.dropWhile_cons, if_pos (isWordChar_of_isWordStart hc)] at hskip hslice
  rw [List.takeWhile_cons, if_pos (isWordChar_of_isWordStart hc)] at hslice
  -- the byte may be part of a character
  obtain ⟨d, hd, hstart⟩ := bytewise_isWordStart.charAt? h c.utf8Size_pos
  rw [hc] at hstart
  rw [Nat.add_zero] at hd
  rw [wordsIn, hd]
  simp only [not_isStringMark_of_isWordChar (isWordChar_of_isWordStart hstart),
    not_isDigit_of_isWordStart hstart, hstart, Bool.false_eq_true, if_false, if_true, hskip, hslice,
    bind, Option.bind_some]
  cases wordsIn t n (some 'a') (offset t (u.dropWhile isWordChar)) <;> rfl

theorem wordsIn_mark (hmark : isStringMark c = false) (hdigit : c.isDigit = false)
    (hword : isWordStart c = false) :
    wordsIn t (n + 1) previous (offset t (c :: u)) =
      wordsIn t n (if isBlank c then previous else some c) (offset t u) := by
  have hlt : c.toNat < 128 := by
    by_contra hle
    rw [isWordStart_of_le (Nat.le_of_not_lt hle)] at hword
    contradiction
  rw [wordsIn, charAt?_of_lt h hlt, offset_cons h hlt]
  simp only [hmark, hdigit, hword, Bool.false_eq_true, if_false]

end Turns

theorem wordsIn_offset (h : s <:+ t) {n : Nat} (hn : s.length < n) (previous : Option Char) (o : Nat)
    (gap : List Char) (ho : o + width gap = offset t s) :
    wordsIn t n previous (offset t s) =
      some ((place o (splitFrom (previous == some '.') gap (lexemes s)).names).map Excerpt.span) := by
  induction n generalizing s previous o gap with
  | zero => omega
  | succ n ih =>
    cases s with
    | nil => rw [wordsIn, charAt?_nil, lexemes]; rfl
    | cons c u =>
      have hu : u <:+ t := (List.suffix_cons c u).trans h
      rw [List.length_cons] at hn
      -- a lexeme that is no free word is added to the gap
      have hgap : ∀ {v r : List Char}, c :: u = v ++ r → o + width (gap ++ v) = offset t r := by
        intro v r hv
        rw [hv] at h ho
        rw [width_append, ← Nat.add_assoc, ho, offset_add h]
      rw [lexemes]
      cases hmark : isStringMark c with
      | true =>
        have happend := closeQuote_append c u
        have hlen := length_closeQuote_le c u
        have hr : (closeQuote c u).2 <:+ t := suffix_of_append (happend.symm ▸ hu)
        have hlater := ih hr (by omega) (some c) o _
          (hgap (v := c :: (closeQuote c u).1) (by simp [happend]))
        have hdot : (some c == some '.') = false := by
          refine beq_eq_false_iff_ne.2 ?_
          rintro ⟨⟩
          exact absurd hmark (by decide)
        rw [wordsIn_quoted h n previous hmark, hlater, hdot]
        rfl
      | false =>
        cases hdigit : c.isDigit with
        | true =>
          have hlen := length_dropWhile_le isNumberChar u
          have hr : u.dropWhile isNumberChar <:+ t := (List.dropWhile_suffix _).trans hu
          have hlater := ih hr (by omega) (some '0') o _
            (hgap (v := c :: u.takeWhile isNumberChar) (by simp))
          rw [wordsIn_number h n previous hdigit, hlater]
          rfl
        | false =>
          cases hword : isWordStart c with
          | true =>
            have hlen := length_dropWhile_le isWordChar u
            have hr : u.dropWhile isWordChar <:+ t := (List.dropWhile_suffix _).trans hu
            have hplace := hgap (v := c :: u.takeWhile isWordChar) (r := u.dropWhile isWordChar)
              (by simp)
            rw [wordsIn_word h n previous hword]
            simp only [Bool.false_eq_true, if_false, if_true, splitFrom]
            cases hfree : previous == some '.' ||
                reserved.contains (String.ofList (c :: u.takeWhile isWordChar)) with
            | true =>
              rw [ih hr (by omega) (some 'a') o _ hplace]
              rfl
            | false =>
              rw [width_append, ← Nat.add_assoc, ho] at hplace
              have hlater := ih hr (by omega) (some 'a') _ [] (Nat.add_zero _)
              simp only [hlater, Option.map_some, Bool.false_eq_true, if_false, place, List.map_cons,
                Excerpt.span, ho, hplace]
              rfl
          | false =>
            have hlater := ih hu (by omega) (if isBlank c then previous else some c) o _
              (hgap (v := [c]) rfl)
            rw [wordsIn_mark h n previous hmark hdigit hword, hlater]
            simp only [Bool.false_eq_true, if_false, splitFrom]
            cases isBlank c <;> rfl

end Scanner

def scanIdentifiers (expression : String) : Option (List Span) :=
  Scanner.wordsIn expression.toList (turns expression.toList) none 0

theorem scanIdentifiers_eq (expression : String) :
    scanIdentifiers expression = some ((identifiers expression).map Excerpt.span) := by
  have hsuf := List.suffix_refl expression.toList
  have h := Scanner.wordsIn_offset hsuf (length_lt_turns hsuf) none 0 []
    (by simp [offset, width])
  rwa [offset, Nat.sub_self] at h

end BlockLens.Template
