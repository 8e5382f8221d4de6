import BlockLens.Overlay.Basic
/-!
Edits reported by the host. Whoever watches the file hears first, the open composite among them;
then those who watch what is made from it are sent its new text.
-/

set_option autoImplicit false

namespace BlockLens

structure Delivery where
  subscription : Nat
  changes : List Change
  version : Int
  deriving DecidableEq, Repr

structure Notified where
  count : Nat
  deliveries : List Delivery
  overlay : Overlay

namespace Overlay

/-- Tells one subscription. A composite that is gone hears nothing. -/
def deliver (changes : List Change) (version : Int) (ov : Overlay) (s : Subscription Listener) :
    List Delivery × Overlay :=
  match s.listener with
  | .client => ([⟨s.id, changes, version⟩], ov)
  | .composite n =>
    if ov.workspace.isAlive n then
      ([], (ov.withWorkspace (·.withDocument n fun _ d => d.update changes version)).2)
    else ([], ov)

def deliverAll (changes : List Change) (version : Int) :
    List (Subscription Listener) → Overlay → List Delivery × Overlay
  | [], ov => ([], ov)
  | s :: ss, ov =>
    let p := deliver changes version ov s
    let q := deliverAll changes version ss p.2
    (p.1 ++ q.1, q.2)

def notify (file : String) (changes : List Change) (version : Int) (ov : Overlay) : Notified :=
  let subs := ov.watchers.forFile file
  let p := deliverAll changes version subs ov
  ⟨subs.length, p.1, p.2⟩

/-- Whether a file is made from `file` and its watchers have to be told: of the main module
always, of a block if its document was given up or never made. -/
def needsNews (file : String) (evicted : List String) (name : String) (ov : Overlay) :
    Bool × Overlay :=
  match FileKind.classify name with
  | .main f => (f = file, ov)
  | .block id =>
    if id.file = file then
      if evicted.contains name then (true, ov)
      else
        let p := ov.withWorkspace (·.withOpen file fun o d => d.hasDocument o name)
        (p.1 == some false, p.2)
    else (false, ov)
  | .composite | .plain => (false, ov)

def announce (host : Host) (file : String) (evicted : List String) (version : Int) :
    List String → Overlay → Notified
  | [], ov => ⟨0, [], ov⟩
  | name :: names, ov =>
    let p := needsNews file evicted name ov
    let r := if p.1 then read host name p.2 else (none, p.2)
    let n :=
      match r.1 with
      | some text => notify name [⟨none, text⟩] version r.2
      | none => ⟨0, [], r.2⟩
    let m := announce host file evicted version names n.overlay
    ⟨n.count + m.count, n.deliveries ++ m.deliveries, m.overlay⟩

def hostEdit (host : Host) (file : String) (changes : List Change) (version : Int) (ov : Overlay) :
    Notified :=
  let n := notify file changes version ov
  match n.overlay.withWorkspace (·.withOpen file fun o d => d.drainEvicted o) with
  | (none, _) => n
  | (some evicted, ov) =>
    let m := announce host file evicted version ov.watchers.files ov
    ⟨n.count + m.count, n.deliveries ++ m.deliveries, m.overlay⟩

end Overlay

end BlockLens
