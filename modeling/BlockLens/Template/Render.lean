import BlockLens.Template.Identifiers
import BlockLens.Text.Quoted
import BlockLens.Transform.Basic
/-!
The module generated for a template. It imports the component, lists the members that the template
uses in a table, and holds one statement per expression, copied but for the table's name before
each free identifier.
-/

set_option autoImplicit false

namespace BlockLens.Template

open Text

/-- A stretch of generated text: made up, or copied from an offset of the template. -/
inductive Piece where
  | made (s : List Char)
  | copied (origin : Nat) (s : List Char)
  deriving DecidableEq, Repr

def Piece.text : Piece → List Char
  | .made s | .copied _ s => s

def segments (o : Nat) : List Piece → List Segment
  | [] => []
  | .made s :: r => segments (o + width s) r
  | .copied a s :: r =>
    if s.isEmpty then segments o r
    else ⟨⟨o, o + width s⟩, ⟨a, a + width s⟩⟩ :: segments (o + width s) r

def table : List Char := "__TemplateGlobals".toList

/-- The text of a split that begins at `o`, with the table named before each identifier. -/
def routed (o : Nat) (tail : List Char) : List (List Char × List Char) → List Piece
  | [] => [.copied o tail]
  | (gap, w) :: r =>
    .copied o gap :: .made (table ++ ['.']) :: .copied (o + width gap) w ::
      routed (o + width gap + width w) tail r

def statement (e : Excerpt) : List Piece :=
  let s := split e.text
  .made "  (".toList :: routed e.start s.tail s.names ++ [.made ");\n".toList]

def usedNames (es : List Excerpt) : List (List Char) :=
  (es.flatMap fun e => (split e.text).names.map (·.2)).eraseDups

def header (scriptImport : Option String) : List Char :=
  (match scriptImport with
    | some source => "import __Self from ".toList ++ (quote source).toList ++ ";\n".toList
    | none => "const __Self = \x7b\x7d as any;\n".toList) ++
    "declare const __ctx: InstanceType<typeof __Self>;\n".toList

def row (name : List Char) : List Char :=
  "  ".toList ++ name ++ ": __ctx.".toList ++ name ++ ",\n".toList

def tableText (names : List (List Char)) : List Char :=
  "const ".toList ++ table ++ " = \x7b\n".toList ++ names.flatMap row ++ "\x7d;\n".toList

def tableBindings (o : Nat) : List (List Char) → List Binding
  | [] => []
  | n :: r =>
    ⟨⟨o + 2, o + 2 + width n⟩, o + 2 + width n + 8⟩ :: tableBindings (o + width (row n)) r

def opening : List Char := "export function render() \x7b\n".toList

def closing : List Char := "\x7d\n".toList

def render (es : List Excerpt) (scriptImport : Option String) : Output :=
  let head := header scriptImport
  let names := usedNames es
  let tbl := tableText names
  let body := es.flatMap statement
  let text := body.flatMap Piece.text
  let o₁ := width head
  let o₂ := o₁ + width tbl
  let o₃ := o₂ + width opening
  let o₄ := o₃ + width text
  { code := String.ofList (head ++ tbl ++ opening ++ text ++ closing)
    lang := "tsx"
    mapping := .segments ⟨segments o₃ body⟩
    zones :=
      [⟨.ignored, ⟨0, o₁⟩⟩, ⟨.templateGlobals, ⟨o₁, o₂⟩⟩, ⟨.ignored, ⟨o₂, o₃⟩⟩,
        ⟨.ignored, ⟨o₄, o₄ + width closing⟩⟩]
    bindings :=
      tableBindings (o₁ + width ("const ".toList ++ table ++ " = \x7b\n".toList)) names }

def run (b : Block) (c : Context) : Except TransformError Output :=
  if b.language = "html" || b.language = "vue-html" then
    .ok (render (expressions b.content) c.scriptImport)
  else .error (.unsupportedLanguage b.kind.tag b.language)

def transformer : Transformer := ⟨fun _ => "tsx", run⟩

end BlockLens.Template
