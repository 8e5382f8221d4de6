import BlockLens.Identifier

set_option autoImplicit false

namespace BlockLens

open Text

def isComposite (name : String) : Bool := (before? ".vue".toList name.toList).isSome

def mainModuleName (file : String) : String := file ++ ".ts"

def compositeOfMain? (name : String) : Option String :=
  ((before? ".ts".toList name.toList).map String.ofList).filter isComposite

inductive FileKind where
  | plain
  | composite
  | main (file : String)
  | block (id : Identifier)
  deriving DecidableEq, Repr

namespace FileKind

def classify (name : String) : FileKind :=
  if Identifier.isVirtual name then
    match Identifier.parse name with
    | .ok id => .block id
    | .error _ => .plain
  else
    match compositeOfMain? name with
    | some file => .main file
    | none => if isComposite name then .composite else .plain

/-- The file on disk from which a file called `name` is derived. -/
def realName (name : String) : FileKind → String
  | .main file => file
  | .block id => id.file
  | .plain | .composite => name

end FileKind

end BlockLens
