import BlockLens.Identifier
import BlockLens.Outline
import BlockLens.Text.Scan
import BlockLens.Transform.Basic
/-!
One block as a document of its own. The document keeps its name and its transformer; the block it
shows is the one its owner has in the slot at present. Offsets go both ways through the mapping of
the generated text, and an offset without a counterpart has none.
-/

set_option autoImplicit false

namespace BlockLens

open Text

structure BlockDocument where
  id : Identifier
  slot : Slot
  /-- Shown when the owner is gone or has nothing in the slot. -/
  initial : Entry
  transformer : Option Transformer
  scriptImport : Option String
  /-- How many documents the owner made before. -/
  serial : Nat

abbrev Generated := Except TransformError (Option Output)

namespace BlockDocument

def key (d : BlockDocument) : String := d.id.text

def current (d : BlockDocument) (owner : Option Outline) : Entry :=
  (owner.bind (·.get? d.slot)).getD d.initial

def generate (d : BlockDocument) (b : Block) : Generated :=
  match d.transformer with
  | none => .ok none
  | some t => (t.run b ⟨d.id.file, d.slot, d.scriptImport⟩).map some

end BlockDocument

/-- A block document, the block it shows, and what was generated from it. -/
structure View where
  doc : BlockDocument
  block : Block
  generated : Generated

namespace View

def ofBlock (d : BlockDocument) (b : Block) : View := ⟨d, b, d.generate b⟩

def output? (v : View) : Option Output := v.generated.toOption.join

/-- From the composite text to the generated text. -/
def generatedAt? (v : View) (o : Nat) : Option Nat :=
  if v.block.isFallback || !v.block.touches o then none
  else v.output?.bind fun out =>
    let rel := o - v.block.span.start
    match out.mapping with
    | .identity => if rel ≤ bytes out.code then some rel else none
    | .segments m => m.generatedAt? rel
    | .unmapped => none

/-- From the generated text to the composite text. -/
def absoluteAt? (v : View) (g : Nat) : Option Nat :=
  if v.block.isFallback then none
  else v.output?.bind fun out =>
    (match out.mapping with
      | .identity => if g ≤ bytes v.block.content then some g else none
      | .segments m => m.sourceAt? g
      | .unmapped => none).map (v.block.span.start + ·)

def zones (v : View) : List Zone :=
  match v.output? with
  | some out => out.zones
  | none => []

def inZone (v : View) (k : ZoneKind) (g : Nat) : Bool :=
  v.zones.any fun z => z.kind = k && z.span.contains g

/-- Where the entry of the table leads whose key is at `g`. -/
def bindingTarget? (v : View) (g : Nat) : Option Nat :=
  v.output?.bind fun out => (out.bindings.find? fun b => b.key.touches g).map (·.target)

end View

end BlockLens
