
set_option autoImplicit false

namespace BlockLens.Text

def wordLimit : Nat := 0x10000000000000000

def word? (s : List Char) : Option Nat :=
  let n := Nat.ofDigitChars 10 s 0
  if !s.isEmpty && s.all Char.isDigit && n < wordLimit then some n else none

/-- As `word?`, and written as it would be printed: without leading zeros. -/
def canonicalWord? (s : List Char) : Option Nat :=
  if s = ['0'] || s.head? != some '0' then word? s else none

def signedWord? : List Char → Option Nat
  | '+' :: s => word? s
  | s => word? s

end BlockLens.Text
