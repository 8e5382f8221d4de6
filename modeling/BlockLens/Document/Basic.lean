import BlockLens.Document.Composite

set_option autoImplicit false

namespace BlockLens

structure Document where
  source : Source
  composite : Composite

namespace Document

variable (o : Options)

def ofText (file text : String) (version : Int) : Document := ⟨⟨text, version⟩, { file }⟩

def markDirty (d : Document) : Document :=
  { d with composite := { d.composite with dirty := true } }

/-- A refused edit changes nothing. -/
def update (changes : List Change) (version : Int) (d : Document) :
    Except DocumentError Unit × Document :=
  match d.source.edit changes version with
  | .ok s => (.ok (), { d with source := s }.markDirty)
  | .error e => (.error e, d)

def refresh (d : Document) : Document :=
  { d with composite := d.composite.refresh o d.source.text }

def blockDocument (s : Slot) (d : Document) : Option BlockDocument × Document :=
  let d := d.refresh o
  let p := d.composite.document o s
  (p.1, { d with composite := p.2 })

def documentAt (offset : Nat) (d : Document) : Option BlockDocument × Document :=
  let d := d.refresh o
  match d.composite.slotAt? offset with
  | some (s, _) => d.blockDocument o s
  | none => (none, d)

/-- The document with a name. The language in the name is not compared, so that a name from
before a change of language still leads to the block. -/
def documentById (id : String) (d : Document) :
    Except DocumentError (Option BlockDocument) × Document :=
  if (Identifier.compositeOf? id).any (· != d.composite.file) then
    (.error (.invalidIdentifier (.foreignFile id d.composite.file)), d)
  else
    match Identifier.parse id with
    | .error e => (.error (.invalidIdentifier e), d)
    | .ok i =>
      match i.slot? with
      | some s =>
        let p := d.blockDocument o s
        (.ok p.1, p.2)
      | none => (.ok none, d)

def mainModule (d : Document) : MainModule × Document :=
  let d := d.refresh o
  (d.composite.main, d)

def hasDocument (key : String) (d : Document) : Bool × Document :=
  let d := d.refresh o
  (d.composite.hasDocument key, d)

def drainEvicted (d : Document) : List String × Document :=
  let d := d.refresh o
  (d.composite.evicted, { d with composite := { d.composite with evicted := [] } })

end Document

end BlockLens
