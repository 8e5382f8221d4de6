import BlockLens.Document.Composite
import BlockLens.Markup.Blocks
import BlockLens.Transform.Builtin

set_option autoImplicit false

namespace BlockLens

def Options.default : Options where
  parser := Markup.split
  registry := .builtin
  runtime := some "vue-virtual-docs~runtime"

end BlockLens
