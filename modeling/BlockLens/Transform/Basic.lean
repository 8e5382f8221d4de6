import BlockLens.Block.Basic
import BlockLens.Block.Slot
import BlockLens.Transform.SourceMap

set_option autoImplicit false

namespace BlockLens

/-- How offsets of the generated text relate to offsets of the block. -/
inductive Mapping where
  | identity
  | segments (map : SourceMap)
  | unmapped
  deriving DecidableEq, Repr

inductive ZoneKind where
  /-- The table that hands the members of the component to the template. -/
  | templateGlobals
  /-- Scaffolding. -/
  | ignored
  deriving DecidableEq, Repr

structure Zone where
  kind : ZoneKind
  span : Span
  deriving DecidableEq, Repr

/-- An entry of the table: where its key stands, and the offset it leads to. -/
structure Binding where
  key : Span
  target : Nat
  deriving DecidableEq, Repr

structure Output where
  code : String
  lang : String
  mapping : Mapping
  zones : List Zone := []
  bindings : List Binding := []
  deriving DecidableEq, Repr

inductive TransformError where
  | unsupportedLanguage (kind lang : String)
  | malformedAttribute (name reason : String)
  deriving DecidableEq, Repr

def TransformError.message : TransformError → String
  | .unsupportedLanguage kind lang => s!"`{lang}` is not supported for `{kind}` blocks"
  | .malformedAttribute name reason => s!"malformed attribute `{name}`: {reason}"

structure Context where
  file : String
  slot : Slot
  /-- Where the component is exported from, if the file has a script. -/
  scriptImport : Option String
  deriving DecidableEq, Repr

structure Transformer where
  /-- Also written into the name of the block. -/
  language : Block → String
  run : Block → Context → Except TransformError Output

def Registry : Type := String → Option Transformer

namespace Registry

def empty : Registry := fun _ => none

def register (r : Registry) (tag : String) (t : Transformer) : Registry :=
  fun k => if k = tag then some t else r k

def get? (r : Registry) (k : Kind) : Option Transformer := r k.tag

@[simp] theorem get?_register (r : Registry) (tag : String) (t : Transformer) (k : Kind) :
    (r.register tag t).get? k = if k.tag = tag then some t else r.get? k := rfl

end Registry

end BlockLens
