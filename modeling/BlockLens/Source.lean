import BlockLens.Identifier
import BlockLens.Text.Lines
/-!
Versioned text. An edit carries a version newer than the present one and a list of changes, and
takes effect as a whole or not at all. Positions count lines and characters.
-/

set_option autoImplicit false

namespace BlockLens

open Text

structure Position where
  line : Nat
  character : Nat
  deriving DecidableEq, Repr

structure Change where
  range : Option (Position × Position)
  text : String
  deriving DecidableEq, Repr

inductive DocumentError where
  | invalidIdentifier (e : IdentifierError)
  | staleVersion (version current : Int)
  | editOutOfBounds (p : Position)
  deriving DecidableEq, Repr

def DocumentError.message : DocumentError → String
  | .invalidIdentifier e => e.message
  | .staleVersion version current => s!"version {version} is not newer than {current}"
  | .editOutOfBounds p => s!"edit range {p.line}:{p.character} is outside the document"

/-- The number of characters before a position. The last position of a line lies behind its
break. -/
def Position.index? (p : Position) (s : List Char) : Option Nat :=
  let ls := lines s
  match ls[p.line]? with
  | none => none
  | some l =>
    if p.character ≤ l.length then some ((ls.take p.line).flatten.length + p.character) else none

def Change.apply (c : Change) (s : List Char) : Except DocumentError (List Char) :=
  match c.range with
  | none => .ok c.text.toList
  | some (p, q) =>
    match p.index? s, q.index? s with
    | none, _ => .error (.editOutOfBounds p)
    | some _, none => .error (.editOutOfBounds q)
    | some i, some j =>
      if j < i then .error (.editOutOfBounds q)
      else .ok (s.take i ++ c.text.toList ++ s.drop j)

def applyAll : List Change → List Char → Except DocumentError (List Char)
  | [], s => .ok s
  | c :: cs, s =>
    match c.apply s with
    | .ok t => applyAll cs t
    | .error e => .error e

structure Source where
  text : String
  version : Int
  deriving DecidableEq, Repr

namespace Source

def edit (s : Source) (changes : List Change) (version : Int) : Except DocumentError Source :=
  if version ≤ s.version then .error (.staleVersion version s.version)
  else
    match applyAll changes s.text.toList with
    | .ok t => .ok ⟨String.ofList t, version⟩
    | .error e => .error e

/-- Only a newer version is accepted, and it becomes the present one. -/
theorem version_of_edit {s t : Source} {changes : List Change} {version : Int}
    (h : s.edit changes version = .ok t) : s.version < version ∧ t.version = version := by
  unfold edit at h
  split at h
  · simp at h
  · split at h
    · simp only [Except.ok.injEq] at h
      subst h
      exact ⟨by omega, rfl⟩
    · simp at h

end Source

end BlockLens
