import BlockLens.Template.Render
import BlockLens.Transform.Script

set_option autoImplicit false

namespace BlockLens

def Registry.builtin : Registry :=
  (Registry.empty.register "script" Script.transformer).register "template" Template.transformer

end BlockLens
