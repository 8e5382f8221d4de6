import BlockLens.Text.Blank
import BlockLens.Transform.Basic

set_option autoImplicit false

namespace BlockLens.Script

def language (b : Block) : String :=
  match b.lang with
  | some lang => if lang = "ts" || lang = "tsx" || lang = "jsx" then lang else "js"
  | none => "js"

/-- A script that names a source must not have a text of its own. -/
def run (b : Block) : Except TransformError Output :=
  if b.attrs.contains "src" && !Text.isVoid b.content.toList then
    .error (.malformedAttribute "src" "a script with `src` must not have inline content")
  else .ok { code := b.content, lang := language b, mapping := .identity }

def transformer : Transformer := ⟨language, fun b _ => run b⟩

end BlockLens.Script
