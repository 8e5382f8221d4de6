
set_option autoImplicit false

namespace BlockLens.Text

/-- Line feed, vertical tab, form feed, carriage return, next line, line and paragraph
separator. -/
def isBreak (c : Char) : Bool :=
  let n := c.toNat
  (0x0a ≤ n && n ≤ 0x0d) || n == 0x85 || n == 0x2028 || n == 0x2029

/-- A carriage return with the line feed behind it is one break. -/
def lines : List Char → List (List Char)
  | [] => [[]]
  | '\r' :: '\n' :: s => ['\r', '\n'] :: lines s
  | c :: s =>
    if isBreak c then [c] :: lines s
    else match lines s with
      | [] => [[c]]
      | l :: ls => (c :: l) :: ls

/-- Nothing is lost between the lines. -/
theorem flatten_lines (s : List Char) : (lines s).flatten = s := by
  fun_induction lines s with
  | case1 => rfl
  | case2 s ih => simp [ih]
  | case3 c s _ _ ih => simp [ih]
  | case4 c s _ _ h ih => simp [h] at ih; simp [← ih]
  | case5 c s _ _ l ls h ih => rw [h] at ih; simp only [List.flatten_cons] at ih ⊢; simp [← ih]

end BlockLens.Text
