import BlockLens.Overlay.Render
import BlockLens.Watchers
import BlockLens.Workspace
/-!
One view of the files of the host and of those made from open composite files. Files that are
opened here hear of their edits.
-/

set_option autoImplicit false

namespace BlockLens

/-- The files of the host. A failure is told as a message followed by its causes. -/
structure Host where
  has : String → Bool
  read : String → Except (List String) String

/-- Who hears of a change: an open composite, or somebody outside. -/
inductive Listener where
  | composite (n : Nat)
  | client
  deriving DecidableEq, Repr

structure Overlay where
  workspace : Workspace
  watchers : Watchers Listener := {}
  /-- The subscriptions that keep open files up to date. -/
  forwarding : List (String × Nat) := []

namespace Overlay

def ofWorkspace (w : Workspace) : Overlay := { workspace := w }

def withWorkspace {α : Type} (ov : Overlay) (f : Workspace → α × Workspace) : α × Overlay :=
  let p := f ov.workspace
  (p.1, { ov with workspace := p.2 })

def fileExists (host : Host) (name : String) (ov : Overlay) : Bool × Overlay :=
  match FileKind.classify name with
  | .block id =>
    let p := ov.withWorkspace (·.documentById id.file name)
    (match p.1 with
      | .ok (some h) => h.doc.transformer.isSome
      | _ => false, p.2)
  | .main file => (ov.workspace.isOpen file, ov)
  | .composite => (ov.workspace.isOpen name || host.has name, ov)
  | .plain => (host.has name, ov)

def readBlock (file name : String) (w : Workspace) : Option String × Workspace :=
  match w.documentById file name with
  | (.ok (some h), w) =>
    let p := w.look h
    let version := (p.2.document? h.owner).elim 0 (·.source.version)
    (Render.generated p.1.generated version, p.2)
  | (.ok none, w) => (none, w)
  | (.error e, w) => (some (Render.errorComment e.message), w)

def readMain (o : Options) (d : Document) : String × Document :=
  let p := d.mainModule o
  (Render.withVersion p.1.text p.2.source.version, p.2)

def read (host : Host) (name : String) (ov : Overlay) : Option String × Overlay :=
  match FileKind.classify name with
  | .block id => ov.withWorkspace (readBlock id.file name)
  | .main file => ov.withWorkspace (·.withOpen file readMain)
  | .composite =>
    if ov.workspace.isOpen name then
      ov.withWorkspace (·.withOpen name fun _ d => (d.source.text, d))
    else ((host.read name).toOption, ov)
  | .plain => ((host.read name).toOption, ov)

def watch (file : String) (ov : Overlay) : Subscription Listener × Overlay :=
  let p := ov.watchers.subscribe file .client
  (p.1, { ov with watchers := p.2 })

def unwatch (id : Nat) (ov : Overlay) : Overlay := { ov with watchers := ov.watchers.unsubscribe id }

def stopForwarding (file : String) (ov : Overlay) : Overlay :=
  match ov.forwarding.lookup file with
  | some id =>
    { ov with
      watchers := ov.watchers.unsubscribe id
      forwarding := ov.forwarding.filter (·.1 ≠ file) }
  | none => ov

/-- Sends the edits of a file to a composite from now on, and to no earlier one. -/
def forward (file : String) (n : Nat) (ov : Overlay) : Overlay :=
  let p := ov.watchers.subscribe file (.composite n)
  let ov := stopForwarding file { ov with watchers := p.2 }
  { ov with forwarding := ov.forwarding ++ [(file, p.1.id)] }

def openFile (host : Host) (file : String) (ov : Overlay) : Except (List String) Nat × Overlay :=
  match ov.workspace.get? file with
  | some n => (.ok n, ov)
  | none =>
    match host.read file with
    | .ok text =>
      let p := ov.workspace.openText file text 0
      (.ok p.1, forward file p.1 { ov with workspace := p.2 })
    | .error causes => (.error (s!"Failed to open composite file {file}" :: causes), ov)

def openText (file text : String) (version : Int) (ov : Overlay) : Nat × Overlay :=
  let p := ov.workspace.openText file text version
  let ov := { ov with workspace := p.2 }
  (p.1, if (ov.forwarding.lookup file).isSome then ov else forward file p.1 ov)

def close (file : String) (ov : Overlay) : Bool × Overlay :=
  let ov := stopForwarding file ov
  (ov.workspace.isOpen file, { ov with workspace := ov.workspace.close file })

def shutdown (ov : Overlay) : Overlay where
  workspace := ov.workspace.closeAll
  watchers := ov.watchers.clear
  forwarding := []

end Overlay

end BlockLens
