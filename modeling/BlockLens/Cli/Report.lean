import BlockLens.Cli.Args
import BlockLens.Overlay.Basic
import BlockLens.Text.Json

set_option autoImplicit false

namespace BlockLens.Cli

open Text

abbrev Answer := Except (List String) String

def padLeft (w : Nat) (s : String) : String :=
  String.ofList (List.replicate (w - s.length) ' ') ++ s

def padRight (w : Nat) (s : String) : String :=
  s ++ String.ofList (List.replicate (w - s.length) ' ')

def slotOf? (selector : String) : Option Slot :=
  if selector = "template" then some .template
  else if selector = "script" then some .script
  else if selector = "script-setup" then some .scriptSetup
  else
    match cut? [':'] selector.toList with
    | none => none
    | some (name, index) =>
      (signedWord? index).map fun i =>
        if name = "style".toList then .style i else .custom (String.ofList name) i

def summaryText (o : Options) (d : Document) : String :=
  let c := d.composite
  let rows := c.outline.documentOrder.map fun p =>
    let span := p.2.block.span
    "  " ++ padLeft 6 (toString span.start) ++ ".." ++ padRight 6 (toString span.stop) ++ " " ++
      (c.blockId? o p.1).getD "<no identifier>" ++ "\n"
  s!"{c.file} (version {d.source.version})\n" ++ String.join rows ++
    s!"  main: {mainModuleName c.file}\n" ++
    String.join (c.errors.map fun e => s!"  error: {e.text}\n")

def summaryJson (o : Options) (d : Document) : String :=
  let c := d.composite
  let blocks := c.outline.documentOrder.map fun p =>
    let b := p.2.block
    Json.object [("end", .nat b.span.stop), ("fallback", .bool b.isFallback),
      ("id", .ofOption .str (c.blockId? o p.1)), ("lang", .str b.language),
      ("start", .nat b.span.start), ("type", .str b.kind.tag)]
  let errors := c.errors.map fun e =>
    Json.object [("end", .nat e.span.stop), ("message", .str e.message),
      ("start", .nat e.span.start)]
  let all := Json.object [("activeIds", .list (c.main.ids.map .str)), ("blocks", .list blocks),
    ("errors", .list errors), ("file", .str c.file), ("main", .str (mainModuleName c.file)),
    ("version", .int d.source.version)]
  all.pretty 0 ++ "\n"

def zoneName (v : View) (g : Nat) : String :=
  if v.inZone .templateGlobals g then "template-globals"
  else if v.inZone .ignored g then "ignored"
  else "mapped"

def mapping (v : View) (offset : Nat) (json : Bool) : String :=
  let g := v.generatedAt? offset
  let back := g.bind v.absoluteAt?
  if json then
    let all := Json.object [("absolute", .ofOption .nat back), ("block", .str v.doc.key),
      ("generated", .ofOption .nat g), ("offset", .nat offset),
      ("zone", .ofOption .str (g.map (zoneName v)))]
    all.pretty 0 ++ "\n"
  else
    match g, back with
    | some g, some back => s!"{offset} -> {v.doc.key}:{g} -> {back}\n"
    | some g, none => s!"{offset} -> {v.doc.key}:{g} -> <unknown>\n"
    | none, _ => s!"{offset} -> {v.doc.key}:<unknown>\n"

def blockName (file selector : String) (ov : Overlay) : Except (List String) String × Overlay :=
  if Identifier.isVirtual selector then (.ok selector, ov)
  else
    match slotOf? selector with
    | none => (.error [s!"Unknown block `{selector}`"], ov)
    | some s =>
      let p := ov.withWorkspace (·.withOpen file fun o d =>
        let d := d.refresh o
        (d.composite.blockId? o s, d))
      match p.1.join with
      | some id => (.ok id, p.2)
      | none => (.error [s!"{file} has no {selector} block"], p.2)

def block (host : Host) (file selector : String) (ov : Overlay) : Answer :=
  match blockName file selector ov with
  | (.error e, _) => .error e
  | (.ok id, ov) =>
    match (ov.read host id).1 with
    | some text => .ok (text ++ "\n")
    | none => .error [s!"No generated text for {id}"]

def mainModule (host : Host) (file : String) (ov : Overlay) : Answer :=
  match (ov.read host (mainModuleName file)).1 with
  | some text => .ok (text ++ "\n")
  | none => .error [s!"No main module for {file}"]

def offsetMap (file : String) (offset : Nat) (json : Bool) (ov : Overlay) : Answer :=
  match ov.workspace.documentAt file offset with
  | (some h, w) => .ok (mapping (w.look h).1 offset json)
  | (none, _) => .error [s!"Offset {offset} is not inside any block of {file}"]

def summary (file : String) (json : Bool) (ov : Overlay) : Answer :=
  let p := ov.withWorkspace (·.withOpen file fun o d =>
    let d := d.refresh o
    (if json then summaryJson o d else summaryText o d, d))
  .ok (p.1.getD "")

def report (host : Host) (o : Options) (a : Args) (file : String) : Answer :=
  match (Overlay.ofWorkspace { options := o }).openFile host file with
  | (.error causes, _) => .error causes
  | (.ok _, ov) =>
    match a.block, a.main, a.map with
    | some selector, _, _ => block host file selector ov
    | none, true, _ => mainModule host file ov
    | none, false, some offset => offsetMap file offset a.json ov
    | none, false, none => summary file a.json ov

end BlockLens.Cli
