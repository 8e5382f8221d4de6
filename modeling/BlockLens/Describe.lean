import BlockLens.Overlay.Basic
import BlockLens.Text.Escaped

set_option autoImplicit false

namespace BlockLens.Describe

open Text

def slot : Slot → String
  | .template => "Template"
  | .script => "Script"
  | .scriptSetup => "ScriptSetup"
  | .style i => s!"Style({i})"
  | .custom name i => s!"Custom \x7b name: {escape name}, index: {i} \x7d"

def blockDocument (d : BlockDocument) : String :=
  s!"BlockDocument \x7b id: {escape d.key}, slot: {slot d.slot}, " ++
    s!"has_transformer: {d.transformer.isSome} \x7d"

def document (d : Document) : String :=
  s!"CompositeDocument \x7b file_name: {escape d.composite.file}, version: {d.source.version} \x7d"

def subscription {α : Type} (s : Subscription α) : String :=
  s!"Subscription \x7b file_name: {escape s.file}, id: {s.id} \x7d"

def overlay (ov : Overlay) : String :=
  s!"FilesystemBridge \x7b open: {ov.workspace.opened.length}, " ++
    s!"watchers: WatcherRegistry \x7b files: {ov.watchers.files.length} \x7d \x7d"

end BlockLens.Describe
