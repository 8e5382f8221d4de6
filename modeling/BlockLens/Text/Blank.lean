/-!
Two classes of white space. `isBlank` separates the parts of a tag; `isSpace` is the Unicode
property, used where a whole text is asked whether it holds anything visible.
-/

set_option autoImplicit false

namespace BlockLens.Text

def isBlank (c : Char) : Bool :=
  c == ' ' || c == '\t' || c == '\n' || c == '\r' || c == '\x0c'

/-- The code points with the property `White_Space`. -/
def isSpace (c : Char) : Bool :=
  let n := c.toNat
  (0x09 ≤ n && n ≤ 0x0d) || n == 0x20 || n == 0x85 || n == 0xa0 || n == 0x1680 ||
    (0x2000 ≤ n && n ≤ 0x200a) || n == 0x2028 || n == 0x2029 || n == 0x202f || n == 0x205f ||
    n == 0x3000

def isVoid (s : List Char) : Bool := s.all isSpace

end BlockLens.Text
