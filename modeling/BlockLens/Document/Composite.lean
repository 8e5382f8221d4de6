import BlockLens.Document.BlockDocument
import BlockLens.Document.MainModule
import BlockLens.Source
/-!
A composite file and the documents made from its blocks. An edit only marks it; the next read
parses again, gives up the documents of blocks that went stale and logs their names, and keeps all
others. After a faulty parse the blocks it did not find stay as they were.
-/

set_option autoImplicit false

namespace BlockLens

structure Options where
  parser : String → Parsed
  registry : Registry
  /-- Imported first by every main module. -/
  runtime : Option String

/-- What is known of a composite file besides its text. -/
structure Composite where
  file : String
  dirty : Bool := true
  /-- The text that was parsed last. -/
  parsed : Option String := none
  parses : Nat := 0
  errors : List ParseError := []
  outline : Outline := {}
  main : MainModule := {}
  live : List BlockDocument := []
  /-- Names given up and not yet asked for. -/
  evicted : List String := []
  created : Nat := 0

namespace Composite

variable (o : Options)

def fallback : Entry where
  stamp := .synthesized
  block :=
    { kind := .script
      lang := some "ts"
      attrs := .ofList [("fallback", "true")]
      span := ⟨0, 0⟩
      content := "import \x7b defineComponent \x7d from 'vue'\nexport default defineComponent(\x7b\x7d)\n" }

/-- The language in the name of a block: that of the generated text, or its own. -/
def languageOf (b : Block) : String :=
  match o.registry.get? b.kind with
  | some t => t.language b
  | none => b.language

def idIn (file : String) (d : Outline) (s : Slot) : Option Identifier :=
  (d.get? s).bind fun e => (Identifier.forSlot file s (languageOf o e.block)).toOption

/-- The name of a block that the main module can import: one with a transformer. -/
def importable (file : String) (d : Outline) (s : Slot) : Option String :=
  (d.get? s).bind fun e =>
    if (o.registry.get? e.block.kind).isSome then (idIn o file d s).map (·.text) else none

def scriptImport (file : String) (d : Outline) : Option String :=
  ((importable o file d .scriptSetup).or (importable o file d .script)).map MainModule.importPath

/-- Slots whose documents a new parse makes stale. Template and setup script stand or fall
together, and with the name of the script. -/
def staleSlots (file : String) (prev next : Outline) : List Slot :=
  let diff := fun s => changed (prev.get? s) (next.get? s)
  let coupled := diff .template || diff .scriptSetup ||
    (diff .script && idIn o file prev .script != idIn o file next .script)
  let fixed := (if coupled then [Slot.template] else []) ++
    (if coupled || diff .script then [Slot.script] else []) ++
    (if coupled then [Slot.scriptSetup] else [])
  let styles := (List.range prev.styles.length).map Slot.style
  let customs := (prev.customSlots.map (·.1)).mergeSort Slot.le
  (fixed ++ (styles ++ customs).filter diff).filter fun s => (prev.get? s).isSome

def evict : List String → List BlockDocument → List BlockDocument × List String
  | [], live => (live, [])
  | k :: ks, live =>
    if live.any (·.key = k) then
      let p := evict ks (live.filter (·.key ≠ k))
      (p.1, k :: p.2)
    else evict ks live

/-- The outline after a parse: what was lost is carried over, what is the same adopted. -/
def merge (prev : Option Outline) (fresh : Outline) (faulty : Bool) : Outline :=
  let filled :=
    match prev with
    | some p => if faulty then p.carryOver fresh else fresh
    | none => fresh
  let scripted := if filled.hasScript then filled else { filled with script := some fallback }
  match prev with
  | some p => p.adopt scripted
  | none => scripted

def reparse (text : String) (c : Composite) : Composite :=
  let out := o.parser text
  let fresh := Outline.ofBlocks c.parses out.blocks
  let errors := out.errors ++ fresh.2
  let prev := if c.parsed.isSome then some c.outline else none
  let next := merge prev fresh.1 (!errors.isEmpty)
  let stale :=
    match prev with
    | some p => (staleSlots o c.file p next).filterMap fun s => (idIn o c.file p s).map (·.text)
    | none => []
  let kept := evict stale c.live
  { c with
    dirty := false
    parsed := some text
    parses := c.parses + 1
    errors := errors
    outline := next
    main :=
      MainModule.generate c.file (next.slots.map (·.1)) (importable o c.file next) o.runtime
    live := kept.1
    evicted := c.evicted ++ kept.2 }

/-- Parses if an edit came in between and left another text. -/
def refresh (text : String) (c : Composite) : Composite :=
  if !c.dirty then c
  else if c.parsed = some text then { c with dirty := false }
  else reparse o text c

/-- In the order of the text, a stand-in last. -/
def blocks (c : Composite) : List Block :=
  let l := c.outline.documentOrder.map (·.2.block)
  match l.findIdx? Block.isFallback with
  | some i => l.eraseIdx i ++ l[i]?.toList
  | none => l

def slotAt? (c : Composite) (offset : Nat) : Option (Slot × Entry) :=
  c.outline.documentOrder.find? fun p => !p.2.block.isFallback && p.2.block.touches offset

def blockId? (c : Composite) (s : Slot) : Option String :=
  (idIn o c.file c.outline s).map (·.text)

def hasDocument (c : Composite) (key : String) : Bool := c.live.any (·.key = key)

def document (s : Slot) (c : Composite) : Option BlockDocument × Composite :=
  match c.outline.get? s, idIn o c.file c.outline s with
  | some e, some id =>
    match c.live.find? (·.key = id.text) with
    | some d => (some d, c)
    | none =>
      let d : BlockDocument :=
        { id, slot := s, initial := e
          transformer := o.registry.get? e.block.kind
          scriptImport := if s = .template then scriptImport o c.file c.outline else none
          serial := c.created }
      (some d, { c with live := c.live ++ [d], created := c.created + 1 })
  | _, _ => (none, c)

end Composite

end BlockLens
