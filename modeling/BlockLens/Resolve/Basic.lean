import BlockLens.Resolve.Engine
import BlockLens.Workspace
/-!
Definitions in the coordinates of composite files. A definition in a block is mapped back, one in
scaffolding is followed to where it leads, and one in a main module is asked for again. A place
that is already being resolved is not resolved inside itself, and only answered places are followed
further, so that resolution ends.
-/

set_option autoImplicit false

namespace BlockLens

inductive Question where
  | definition
  | bound
  deriving DecidableEq, Repr

structure Query where
  question : Question
  place : Place
  deriving DecidableEq, Repr

/-- The open files, and what the engine was asked. -/
structure Resolving where
  workspace : Workspace
  queries : List Query := []

abbrev Resolve := StateM Resolving

namespace Resolve

def ask {α : Type} (q : Question) (p : Place) (answer : α) : Resolve α := do
  modify fun s => { s with queries := s.queries ++ [⟨q, p⟩] }
  return answer

def look (h : Handle) : Resolve View := do
  let p := (← get).workspace.look h
  modify fun s => { s with workspace := p.2 }
  return p.1

def blockView (name : String) : Resolve (Option View) := do
  let p := (← get).workspace.blockDocument name
  modify fun s => { s with workspace := p.2 }
  match p.1 with
  | none => return none
  | some h => return some (← look h)

def locate (file : String) (offset : Nat) : Resolve (Option (View × Nat)) := do
  let p := (← get).workspace.documentAt file offset
  modify fun s => { s with workspace := p.2 }
  match p.1 with
  | none => return none
  | some h =>
    if h.doc.transformer.isNone then return none
    let v ← look h
    return (v.generatedAt? offset).map (v, ·)

/-- An extent of the generated text in the composite text. It never becomes shorter. -/
def compositeExtent (v : View) (e : Extent) : Extent :=
  match v.absoluteAt? e.start with
  | none => .placeholder
  | some start =>
    let mapped :=
      match v.absoluteAt? e.stop with
      | some stop => if start ≤ stop then stop - start else 1
      | none => 1
    ⟨start, max mapped e.length⟩

def dedupe : List Definition → List Definition
  | [] => []
  | d :: ds => d :: (dedupe ds).filter fun x => !(x.file = d.file && x.extent = d.extent)

/-- A definition in real coordinates; `follow` resolves another place. -/
def normalize (follow : Place → Resolve (Option (List Definition))) (d : Definition) :
    Resolve (List Definition) :=
  match FileKind.classify d.file with
  | .block id => do
    match ← blockView d.file with
    | none =>
      return [{ d with
        file := id.file
        extent := .placeholder
        context := d.context.map fun _ => .placeholder }]
    | some v =>
      if v.inZone .templateGlobals d.extent.start then
        match v.bindingTarget? d.extent.start with
        | none => return []
        | some t => return (← follow (d.file, t)).getD []
      else if v.inZone .ignored d.extent.start then
        return (← follow (d.file, d.extent.start)).getD []
      else
        return [{ d with
          file := id.file
          extent := compositeExtent v d.extent
          context := d.context.map (compositeExtent v) }]
  | .main file => do
    let found := (← follow (d.file, d.extent.start)).getD []
    if found.isEmpty then return [{ d with file, extent := .placeholder }] else return found
  | .plain | .composite => return [d]

def normalizeAll (follow : Place → Resolve (Option (List Definition))) :
    List Definition → Resolve (List Definition)
  | [] => return []
  | d :: ds => do
    let found ← normalize follow d
    let rest ← normalizeAll follow ds
    return found ++ rest

/-- What the engine has at a place, resolved; `visited` are the places in the course of which
this one came up. -/
def follow (e : Engine) (visited : List Place) (p : Place) : Resolve (Option (List Definition)) :=
  if _hv : visited.contains p then return none
  else do
    ask .definition p ()
    match _h : e.definitionsAt? p with
    | none => return none
    | some raw =>
      let found ← normalizeAll (follow e (p :: visited)) raw
      return some (dedupe found)
termination_by e.unvisited visited
decreasing_by exact Engine.unvisited_cons_lt _h (by simpa using _hv)

def definitions (e : Engine) (p : Place) : Resolve (Option (List Definition)) :=
  match FileKind.classify p.1 with
  | .composite => do
    match ← locate p.1 p.2 with
    | none => return none
    | some (v, g) =>
      match ← ask .definition (v.doc.key, g) (e.definitionsAt? (v.doc.key, g)) with
      | none => return none
      | some raw =>
        let found ← normalizeAll (follow e [p]) raw
        return some (dedupe found)
  | _ => follow e [] p

def bound (e : Engine) (p : Place) : Resolve (Option Bound) := do
  let answer ←
    match FileKind.classify p.1 with
    | .composite =>
      match ← locate p.1 p.2 with
      | none => pure none
      | some (v, g) =>
        let b ← ask .bound (v.doc.key, g) (e.boundAt? (v.doc.key, g))
        pure (b.map fun b => { b with extent := compositeExtent v b.extent })
    | _ => ask .bound p (e.boundAt? p)
  match answer with
  | none => return none
  | some b =>
    let found ← normalizeAll (follow e [p]) b.definitions
    return some { b with definitions := dedupe found }

end Resolve

end BlockLens
