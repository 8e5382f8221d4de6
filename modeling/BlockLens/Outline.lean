import BlockLens.Block.Basic
import BlockLens.Block.Slot
/-!
The blocks of one composite file by slot, and what passes from one parse to the next: blocks that
did not change are taken over as they were (`adopt`), and blocks that a faulty parse lost stay
(`carryOver`).
-/

set_option autoImplicit false

namespace BlockLens

/-- Where a block was made: in which parse and at which place of its list, or once and for all.
Equal stamps mean one and the same object. -/
inductive Stamp where
  | parsed (parse place : Nat)
  | synthesized
  deriving DecidableEq, Repr

structure Entry where
  stamp : Stamp
  block : Block
  deriving DecidableEq, Repr

def Entry.adopt (prev : Option Entry) (e : Entry) : Entry :=
  match prev with
  | some p => if p.block.sameAs e.block then p else e
  | none => e

/-- A slot changed when it was filled or emptied, or holds another block. -/
def changed : Option Entry → Option Entry → Bool
  | none, none => false
  | some a, some b => !a.block.sameAs b.block
  | _, _ => true

structure Outline where
  template : Option Entry := none
  script : Option Entry := none
  scriptSetup : Option Entry := none
  styles : List Entry := []
  customs : List Entry := []
  deriving DecidableEq, Repr

namespace Outline

def duplicate (b : Block) : ParseError where
  message :=
    let what := if b.isSetup then "<script setup>" else b.kind.tag
    s!"Single file component can contain only one {what} element"
  span := b.span

/-- Puts a block into its slot; a second one for a slot that holds one is refused. -/
def add (d : Outline) (e : Entry) : Except ParseError Outline :=
  match e.block.kind with
  | .template =>
    if d.template.isSome then .error (duplicate e.block) else .ok { d with template := some e }
  | .script =>
    if e.block.isSetup then
      if d.scriptSetup.isSome then .error (duplicate e.block)
      else .ok { d with scriptSetup := some e }
    else
      if d.script.isSome then .error (duplicate e.block) else .ok { d with script := some e }
  | .style => .ok { d with styles := d.styles ++ [e] }
  | .custom _ => .ok { d with customs := d.customs ++ [e] }

def addAll (d : Outline) : List Entry → Outline × List ParseError
  | [] => (d, [])
  | e :: es =>
    match d.add e with
    | .ok d' => d'.addAll es
    | .error x =>
      let p := d.addAll es
      (p.1, x :: p.2)

def ofBlocks (parse : Nat) (blocks : List Block) : Outline × List ParseError :=
  addAll {} (blocks.mapIdx fun i b => ⟨.parsed parse i, b⟩)

def get? (d : Outline) : Slot → Option Entry
  | .template => d.template
  | .script => d.script
  | .scriptSetup => d.scriptSetup
  | .style i => d.styles[i]?
  | .custom name i => (d.customs.filter fun e => e.block.kind.tag = name)[i]?

/-- Custom blocks with their slots, given the names that went before. -/
def number (seen : List String) : List Entry → List (Slot × Entry)
  | [] => []
  | e :: es =>
    let name := e.block.kind.tag
    (.custom name (seen.count name), e) :: number (name :: seen) es

def customSlots (d : Outline) : List (Slot × Entry) := number [] d.customs

def slots (d : Outline) : List (Slot × Entry) :=
  (d.scriptSetup.map (Slot.scriptSetup, ·)).toList ++ (d.script.map (Slot.script, ·)).toList ++
    (d.template.map (Slot.template, ·)).toList ++ d.styles.mapIdx (fun i e => (Slot.style i, e)) ++
    d.customSlots

/-- The filled slots by their place in the text. -/
def documentOrder (d : Outline) : List (Slot × Entry) :=
  d.slots.mergeSort fun a b => a.2.block.span.start ≤ b.2.block.span.start

def hasScript (d : Outline) : Bool := d.script.isSome || d.scriptSetup.isSome

/-- Takes every block that did not change from `prev`. -/
def adopt (prev d : Outline) : Outline where
  template := d.template.map (Entry.adopt prev.template)
  script := d.script.map (Entry.adopt prev.script)
  scriptSetup := d.scriptSetup.map (Entry.adopt prev.scriptSetup)
  styles := d.styles.mapIdx fun i e => Entry.adopt prev.styles[i]? e
  customs := d.customSlots.map fun p => Entry.adopt (prev.get? p.1) p.2

/-- What an empty slot takes from the one before: never a stand-in. -/
def inherited (own prev : Option Entry) : Option Entry :=
  match own, prev with
  | none, some p => if p.block.isFallback then none else some p
  | _, _ => none

def missing (prev d : Outline) : List (Slot × Entry) :=
  ((inherited d.template prev.template).map (Slot.template, ·)).toList ++
    ((inherited d.script prev.script).map (Slot.script, ·)).toList ++
    ((inherited d.scriptSetup prev.scriptSetup).map (Slot.scriptSetup, ·)).toList ++
    (prev.styles.mapIdx (fun i e => (Slot.style i, e))).drop d.styles.length ++
    prev.customSlots.filter fun p => !(d.customSlots.map (·.1)).contains p.1

/-- Fills the empty slots from `prev`. -/
def carryOver (prev d : Outline) : Outline where
  template := d.template.or (inherited d.template prev.template)
  script := d.script.or (inherited d.script prev.script)
  scriptSetup := d.scriptSetup.or (inherited d.scriptSetup prev.scriptSetup)
  styles := d.styles ++ prev.styles.drop d.styles.length
  customs :=
    d.customs ++
      (prev.customSlots.filter fun p => !(d.customSlots.map (·.1)).contains p.1).map (·.2)

/-- Equal blocks in equal places, whatever the stamps. -/
def sameBlocks (a b : Outline) : Bool :=
  a.template.map (·.block) = b.template.map (·.block) &&
    a.script.map (·.block) = b.script.map (·.block) &&
    a.scriptSetup.map (·.block) = b.scriptSetup.map (·.block) &&
    a.styles.map (·.block) = b.styles.map (·.block) &&
    a.customs.map (·.block) = b.customs.map (·.block)

end Outline

end BlockLens
