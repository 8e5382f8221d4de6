import BlockLens.Template.Expressions
/-!
The free identifiers of an expression. The expression is divided into lexemes, of which nothing is
lost; a word is free unless it follows a dot or belongs to the language or its globals.
-/

set_option autoImplicit false

namespace BlockLens.Template

open Text

inductive Lexeme where
  | quoted (s : List Char)
  | number (s : List Char)
  | word (s : List Char)
  | mark (c : Char)
  deriving DecidableEq, Repr

def Lexeme.text : Lexeme → List Char
  | .quoted s | .number s | .word s => s
  | .mark c => [c]

def isWordStart (c : Char) : Bool := c.isAlpha || c == '_' || c == '$' || 0x80 ≤ c.toNat

def isWordChar (c : Char) : Bool := c.isAlphanum || c == '_' || c == '$' || 0x80 ≤ c.toNat

def isNumberChar (c : Char) : Bool := isWordChar c || c == '.'

def isStringMark (c : Char) : Bool := c == '"' || c == '\x27' || c == '\x60'

/-- The rest of a string literal up to its mark, and what follows. A backslash hides one
character. -/
def closeQuote (q : Char) : List Char → List Char × List Char
  | [] => ([], [])
  | c :: s =>
    if c = q then ([c], s)
    else if c = '\\' then
      match s with
      | [] => ([c], [])
      | d :: t => (closeQuote q t).map (c :: d :: ·) id
    else (closeQuote q s).map (c :: ·) id

theorem closeQuote_append (q : Char) (s : List Char) :
    (closeQuote q s).1 ++ (closeQuote q s).2 = s := by
  fun_induction closeQuote q s <;> simp_all

theorem length_closeQuote_le (q : Char) (s : List Char) :
    (closeQuote q s).2.length ≤ s.length := by
  have h := congrArg List.length (closeQuote_append q s)
  simp only [List.length_append] at h
  omega

def lexemes (s : List Char) : List Lexeme :=
  match s with
  | [] => []
  | c :: t =>
    if isStringMark c then
      let p := closeQuote c t
      .quoted (c :: p.1) :: lexemes p.2
    else if c.isDigit then
      .number (c :: t.takeWhile isNumberChar) :: lexemes (t.dropWhile isNumberChar)
    else if isWordStart c then
      .word (c :: t.takeWhile isWordChar) :: lexemes (t.dropWhile isWordChar)
    else .mark c :: lexemes t
termination_by s.length
decreasing_by
  · have := length_closeQuote_le c t; simp; omega
  · have := length_dropWhile_le isNumberChar t; simp; omega
  · have := length_dropWhile_le isWordChar t; simp; omega
  · simp

theorem lexemes_flatMap_text (s : List Char) : (lexemes s).flatMap Lexeme.text = s := by
  fun_induction lexemes s with
  | case1 => simp
  | case2 c t h p ih =>
    have := closeQuote_append c t
    simp_all [Lexeme.text, p]
  | case3 c t _ _ ih => simp [Lexeme.text, ih, List.takeWhile_append_dropWhile]
  | case4 c t _ _ _ ih => simp [Lexeme.text, ih, List.takeWhile_append_dropWhile]
  | case5 c t _ _ _ ih => simp [Lexeme.text, ih]

def reserved : List String :=
  ["true", "false", "null", "undefined", "this", "typeof", "instanceof", "in", "of", "new",
    "void", "delete", "await", "NaN", "Infinity", "Math", "JSON", "Date", "Number", "String",
    "Boolean", "Array", "Object", "console", "window", "arguments", "$event"]

/-- An expression with its free identifiers lifted out: each with the text before it, and the
text after the last. -/
structure Split where
  names : List (List Char × List Char)
  tail : List Char
  deriving DecidableEq, Repr

def Split.text (s : Split) : List Char := s.names.flatMap (fun p => p.1 ++ p.2) ++ s.tail

/-- Goes through lexemes with the text `gap` since the last free identifier; `member` tells that
a dot went before. -/
def splitFrom (member : Bool) (gap : List Char) : List Lexeme → Split
  | [] => ⟨[], gap⟩
  | .word w :: ls =>
    if member || reserved.contains (String.ofList w) then splitFrom false (gap ++ w) ls
    else
      let p := splitFrom false [] ls
      ⟨(gap, w) :: p.names, p.tail⟩
  | .quoted s :: ls | .number s :: ls => splitFrom false (gap ++ s) ls
  | .mark c :: ls => splitFrom (if isBlank c then member else c == '.') (gap ++ [c]) ls

theorem splitFrom_text (member : Bool) (gap : List Char) (ls : List Lexeme) :
    (splitFrom member gap ls).text = gap ++ ls.flatMap Lexeme.text := by
  fun_induction splitFrom member gap ls with
  | case1 => simp [Split.text]
  | case2 => simp_all [Lexeme.text]
  | case3 member gap w ls h p ih =>
    simp only [Split.text, List.nil_append] at ih
    simp [Split.text, Lexeme.text, p, ih]
  | case4 => simp_all [Lexeme.text]
  | case5 => simp_all [Lexeme.text]
  | case6 => simp_all [Lexeme.text]

def split (s : List Char) : Split := splitFrom false [] (lexemes s)

theorem split_text (s : List Char) : (split s).text = s := by
  simp [split, splitFrom_text, lexemes_flatMap_text]

def place (o : Nat) : List (List Char × List Char) → List Excerpt
  | [] => []
  | (gap, w) :: r => ⟨o + width gap, w⟩ :: place (o + width gap + width w) r

def identifiers (expression : String) : List Excerpt := place 0 (split expression.toList).names

end BlockLens.Template
