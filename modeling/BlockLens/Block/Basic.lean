import BlockLens.Block.Attributes
import BlockLens.Block.Kind
import BlockLens.Span

set_option autoImplicit false

namespace BlockLens

structure Block where
  kind : Kind
  lang : Option String := none
  attrs : Attributes := {}
  /-- Where `content` lies in the composite text. -/
  span : Span
  content : String
  deriving DecidableEq, Repr

namespace Block

def language (b : Block) : String := b.lang.getD b.kind.defaultLanguage

def isSetup (b : Block) : Bool := b.kind = .script && b.attrs.isSet "setup"

/-- Marked as a stand-in and without a place in the text. -/
def isFallback (b : Block) : Bool := b.attrs.isSet "fallback" && b.span.isEmpty

def touches (b : Block) (o : Nat) : Bool := b.span.touches o

/-- Same content, language, place and attributes. The kind is left to the slot. -/
def sameAs (a b : Block) : Bool :=
  a.content = b.content && a.lang = b.lang && a.span = b.span && a.attrs = b.attrs

@[simp] theorem sameAs_self (b : Block) : b.sameAs b = true := by simp [sameAs]

end Block

structure ParseError where
  message : String
  span : Span
  deriving DecidableEq, Repr

def ParseError.text (e : ParseError) : String :=
  s!"{e.message} at {e.span.start}..{e.span.stop}"

structure Parsed where
  blocks : List Block := []
  errors : List ParseError := []
  deriving DecidableEq, Repr

end BlockLens
