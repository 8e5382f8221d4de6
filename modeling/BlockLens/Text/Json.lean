import BlockLens.Text.Quoted

set_option autoImplicit false

namespace BlockLens.Text

inductive Json where
  /-- Written as it is: a number, a truth value, nothing, or a quoted string. -/
  | atom (text : String)
  | list (items : List Json)
  | object (fields : List (String × Json))

namespace Json

def str (s : String) : Json := .atom (quote s)

def nat (n : Nat) : Json := .atom (toString n)

def int (n : Int) : Json := .atom (toString n)

def bool (b : Bool) : Json := .atom (if b then "true" else "false")

def null : Json := .atom "null"

def ofOption {α : Type} (f : α → Json) : Option α → Json
  | some a => f a
  | none => null

def margin (n : Nat) : String := String.ofList (List.replicate (2 * n) ' ')

def enclose (n : Nat) (left right : String) (lines : List String) : String :=
  if lines.isEmpty then left ++ right
  else
    left ++ "\n" ++ ",\n".intercalate (lines.map (margin (n + 1) ++ ·)) ++ "\n" ++ margin n ++ right

mutual

def pretty (n : Nat) : Json → String
  | .atom t => t
  | .list items => enclose n "[" "]" (prettyItems (n + 1) items)
  | .object fields => enclose n "\x7b" "\x7d" (prettyFields (n + 1) fields)

def prettyItems (n : Nat) : List Json → List String
  | [] => []
  | j :: js => pretty n j :: prettyItems n js

def prettyFields (n : Nat) : List (String × Json) → List String
  | [] => []
  | (k, j) :: r => (quote k ++ ": " ++ pretty n j) :: prettyFields n r

end

end Json

end BlockLens.Text
