import BlockLens.Document.Basic
import BlockLens.FileKind
import BlockLens.Text.Sorted
/-!
Open composite files. Texts and composites are numbered in the order in which they were made;
several composites may share a text. A composite lives as long as it is open or held. What was
generated for a block document is kept until the document shows another block.
-/

set_option autoImplicit false

namespace BlockLens

/-- A composite and the number of its text. -/
structure Filed where
  source : Nat
  composite : Composite

/-- A block document and the number of the composite that owns it. -/
structure Handle where
  owner : Nat
  doc : BlockDocument

def Handle.number (h : Handle) : Nat × Nat := (h.owner, h.doc.serial)

structure Kept where
  stamp : Stamp
  generated : Generated

structure Workspace where
  options : Options
  sources : List Source := []
  composites : List Filed := []
  /-- Open files, and the composite of each. -/
  opened : List (String × Nat) := []
  held : List Nat := []
  kept : List ((Nat × Nat) × Kept) := []

namespace Workspace

def get? (w : Workspace) (file : String) : Option Nat := w.opened.lookup file

def isOpen (w : Workspace) (file : String) : Bool := (w.get? file).isSome

def isAlive (w : Workspace) (n : Nat) : Bool := w.opened.any (·.2 = n) || w.held.contains n

def document? (w : Workspace) (n : Nat) : Option Document :=
  w.composites[n]?.bind fun f => w.sources[f.source]?.map fun s => ⟨s, f.composite⟩

def put (w : Workspace) (n : Nat) (d : Document) : Workspace :=
  match w.composites[n]? with
  | some f =>
    { w with
      sources := w.sources.set f.source d.source
      composites := w.composites.set n { f with composite := d.composite } }
  | none => w

def withDocument {α : Type} (w : Workspace) (n : Nat) (f : Options → Document → α × Document) :
    Option α × Workspace :=
  match w.document? n with
  | some d =>
    let p := f w.options d
    (some p.1, w.put n p.2)
  | none => (none, w)

def withOpen {α : Type} (w : Workspace) (file : String) (f : Options → Document → α × Document) :
    Option α × Workspace :=
  match w.get? file with
  | some n => w.withDocument n f
  | none => (none, w)

def addSource (w : Workspace) (s : Source) : Nat × Workspace :=
  (w.sources.length, { w with sources := w.sources ++ [s] })

/-- Edits a text behind the back of the composites that share it. -/
def editSource (w : Workspace) (n : Nat) (changes : List Change) (version : Int) :
    Except DocumentError Unit × Workspace :=
  match w.sources[n]? with
  | none => (.ok (), w)
  | some s =>
    match s.edit changes version with
    | .ok t => (.ok (), { w with sources := w.sources.set n t })
    | .error e => (.error e, w)

def openSource (w : Workspace) (file : String) (source : Nat) : Nat × Workspace :=
  match w.get? file with
  | some n => (n, w)
  | none =>
    let n := w.composites.length
    (n, { w with
      composites := w.composites ++ [⟨source, { file }⟩]
      opened := w.opened ++ [(file, n)] })

def openText (w : Workspace) (file text : String) (version : Int) : Nat × Workspace :=
  match w.get? file with
  | some n => (n, w)
  | none =>
    let p := w.addSource ⟨text, version⟩
    p.2.openSource file p.1

def close (w : Workspace) (file : String) : Workspace :=
  { w with opened := w.opened.filter (·.1 ≠ file) }

@[simp] theorem get?_close_self (w : Workspace) (file : String) :
    (w.close file).get? file = none := by
  simp only [get?, close]
  induction w.opened with
  | nil => rfl
  | cons a r ih =>
    by_cases h : a.1 = file
    · rw [List.filter_cons_of_neg (by simpa using h)]
      exact ih
    · have hb : (file == a.1) = false := by simpa using fun e => h e.symm
      rw [List.filter_cons_of_pos (by simpa using h), List.lookup_cons, hb]
      exact ih

def closeAll (w : Workspace) : Workspace := { w with opened := [] }

def hold (w : Workspace) (n : Nat) : Workspace := { w with held := n :: w.held }

def releaseAll (w : Workspace) : Workspace := { w with held := [] }

def files (w : Workspace) : List String := sortStrings (w.opened.map (·.1))

/-- The open composite behind a composite, main module or block name. -/
def compositeFor? (w : Workspace) (name : String) : Option Nat :=
  match FileKind.classify name with
  | .plain => none
  | k => w.get? (k.realName name)

def documentById (w : Workspace) (file name : String) :
    Except DocumentError (Option Handle) × Workspace :=
  match w.get? file with
  | none => (.ok none, w)
  | some n =>
    let p := w.withDocument n fun o d => d.documentById o name
    (match p.1 with
      | some (.ok doc) => .ok (doc.map (⟨n, ·⟩))
      | some (.error e) => .error e
      | none => .ok none, p.2)

def blockDocument (w : Workspace) (name : String) : Option Handle × Workspace :=
  match FileKind.classify name with
  | .block id =>
    let p := w.documentById id.file name
    (p.1.toOption.join, p.2)
  | _ => (none, w)

def documentAt (w : Workspace) (file : String) (offset : Nat) : Option Handle × Workspace :=
  match w.get? file with
  | some n =>
    let p := w.withDocument n fun o d => d.documentAt o offset
    (p.1.join.map (⟨n, ·⟩), p.2)
  | none => (none, w)

/-- A block document shows what its owner has now, as long as the owner lives. -/
def entryOf (w : Workspace) (h : Handle) : Entry :=
  h.doc.current <|
    if w.isAlive h.owner then w.composites[h.owner]?.map (·.composite.outline) else none

/-- Looks at a block document. The text is generated only if the block is not the one that was
seen last. -/
def look (w : Workspace) (h : Handle) : View × Workspace :=
  let e := w.entryOf h
  let fresh := fun () =>
    let g := h.doc.generate e.block
    (⟨h.doc, e.block, g⟩,
      { w with kept := (h.number, ⟨e.stamp, g⟩) :: w.kept.filter (·.1 ≠ h.number) })
  match w.kept.lookup h.number with
  | some k => if k.stamp = e.stamp then (⟨h.doc, e.block, k.generated⟩, w) else fresh ()
  | none => fresh ()

end Workspace

end BlockLens
