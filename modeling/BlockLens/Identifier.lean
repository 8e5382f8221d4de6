import BlockLens.Block.Slot
import BlockLens.Text.Blank
import BlockLens.Text.Numeral
import BlockLens.Text.Scan
/-!
Names of blocks as files: the composite file, a marker, and a query that gives the kind, the index
or setup flag where the kind has one, and the language. `parse` accepts only what `text` writes.
-/

set_option autoImplicit false

namespace BlockLens

open Text

structure Identifier where
  file : String
  kind : Kind
  index : Option Nat
  setup : Bool
  lang : String
  deriving DecidableEq, Repr

inductive IdentifierError where
  | missingMarker (id : String)
  | missingType (id : String)
  | unexpectedSegment (id segment : String)
  | invalidIndex (id index : String)
  | indexNotAllowed (kind : String)
  | indexRequired (kind : String)
  | setupNotAllowed (kind : String)
  | missingLanguage (id : String)
  | invalidName (name : String)
  | foreignFile (id file : String)
  deriving DecidableEq, Repr

def IdentifierError.message : IdentifierError → String
  | .missingMarker id => s!"identifier `{id}` has no `?vue` marker"
  | .missingType id => s!"identifier `{id}` has no block type"
  | .unexpectedSegment id segment =>
    s!"identifier `{id}` has an unexpected segment `{segment}`"
  | .invalidIndex id index => s!"identifier `{id}` has an invalid index `{index}`"
  | .indexNotAllowed kind => s!"block type `{kind}` cannot carry an index"
  | .indexRequired kind => s!"block type `{kind}` requires an index"
  | .setupNotAllowed kind => s!"only script blocks can be setup blocks, found `{kind}`"
  | .missingLanguage id => s!"identifier `{id}` has no language segment"
  | .invalidName name => s!"`{name}` is not a valid block type or language name"
  | .foreignFile id file => s!"identifier `{id}` does not belong to `{file}`"

namespace Identifier

def marker : List Char := ['?', 'v', 'u', 'e']

def compositeOf? (name : String) : Option String :=
  (cut? marker name.toList).map fun p => String.ofList p.1

def isVirtual (name : String) : Bool := contains marker name.toList

/-- Kinds and languages must not hold what divides the query. -/
def isValidName (s : List Char) : Bool :=
  !s.isEmpty && s.all fun c =>
    !(c == '&' || c == '=' || c == '?' || c == '#' || c == '/' || c == '\\' || isSpace c)

def validate (i : Identifier) : Except IdentifierError Unit :=
  if isVirtual i.file then .error (.invalidName i.file)
  else if !isValidName i.kind.tag.toList then .error (.invalidName i.kind.tag)
  else if !isValidName i.lang.toList then .error (.invalidName i.lang)
  else if i.kind.repeats && i.index.isNone then .error (.indexRequired i.kind.tag)
  else if !i.kind.repeats && i.index.isSome then .error (.indexNotAllowed i.kind.tag)
  else if i.setup && i.kind != .script then .error (.setupNotAllowed i.kind.tag)
  else .ok ()

def slot? (i : Identifier) : Option Slot := Slot.ofParts? i.kind i.index i.setup

def forSlot (file : String) (slot : Slot) (lang : String) : Except IdentifierError Identifier :=
  let i : Identifier := ⟨file, slot.kind, slot.index?, slot.isSetup, lang⟩
  i.validate.map fun _ => i

def text (i : Identifier) : String :=
  i.file ++ "?vue&type=" ++ i.kind.tag ++
    (match i.index with
      | some n => "&index=" ++ toString n
      | none => "") ++
    (if i.setup then "&setup=true" else "") ++ "&lang." ++ i.lang

def takeIndex (id : String) :
    List (List Char) → Except IdentifierError (Option Nat × List (List Char))
  | [] => .ok (none, [])
  | s :: r =>
    match after? "index=".toList s with
    | none => .ok (none, s :: r)
    | some raw =>
      match canonicalWord? raw with
      | some n => .ok (some n, r)
      | none => .error (.invalidIndex id (String.ofList raw))

def takeSetup (id : String) :
    List (List Char) → Except IdentifierError (Bool × List (List Char))
  | [] => .ok (false, [])
  | s :: r =>
    if startsWith "setup".toList s then
      if s = "setup=true".toList then .ok (true, r)
      else .error (.unexpectedSegment id (String.ofList s))
    else .ok (false, s :: r)

def takeLanguage (id : String) : List (List Char) → Except IdentifierError (List Char)
  | [] => .error (.missingLanguage id)
  | s :: r =>
    match after? "lang.".toList s, r with
    | none, _ => .error (.unexpectedSegment id (String.ofList s))
    | some lang, [] => .ok lang
    | some _, t :: _ => .error (.unexpectedSegment id (String.ofList t))

def readParts (id : String) (file kind : List Char) (segments : List (List Char)) :
    Except IdentifierError Identifier := do
  let (index, segments) ← takeIndex id segments
  let (setup, segments) ← takeSetup id segments
  let lang ← takeLanguage id segments
  let i : Identifier :=
    ⟨String.ofList file, .ofTag (String.ofList kind), index, setup, String.ofList lang⟩
  i.validate
  return i

def parse (id : String) : Except IdentifierError Identifier :=
  match cut? marker id.toList with
  | none => .error (.missingMarker id)
  | some (file, '&' :: query) =>
    match pieces (· == '&') query with
    | [] => .error (.missingType id)
    | s :: segments =>
      match after? "type=".toList s with
      | some kind =>
        if isValidName kind then readParts id file kind segments else .error (.missingType id)
      | none => .error (.missingType id)
  | some _ => .error (.missingType id)

end Identifier

end BlockLens
