import BlockLens.Block.Slot
import BlockLens.Text.Quoted
import BlockLens.Text.Scan
import BlockLens.Text.Sorted

set_option autoImplicit false

namespace BlockLens

open Text

structure MainModule where
  text : String := ""
  /-- What it imports, sorted. -/
  ids : List String := []
  deriving DecidableEq, Repr

namespace MainModule

def isSlash (c : Char) : Bool := c == '/'

def withoutExtension (s : List Char) : List Char :=
  (([".tsx", ".jsx", ".ts", ".js"].findSome? fun e => before? e.toList s)).getD s

def importPath (id : String) : String :=
  "./" ++ String.ofList (lastPiece isSlash (withoutExtension id.toList))

def importSource (id : String) : String := quote (importPath id)

def capitalize : List Char → List Char
  | [] => []
  | c :: s => c.toUpper :: s

def stem (file : List Char) : List Char :=
  (lastPiece (fun c => c == '/' || c == '\\') file).takeWhile (· != '.')

/-- Runs of letters, digits and dollar signs, each with a capital in front. -/
def componentName (file : String) : String :=
  let parts := pieces (fun c => !(c.isAlphanum || c == '$')) (stem file.toList)
  match parts.flatMap capitalize with
  | [] => "Component"
  | c :: s => if c.isDigit then String.ofList ('_' :: c :: s) else String.ofList (c :: s)

def scriptLines (setup script : Option String) : List String :=
  match setup, script with
  | some a, some b =>
    [s!"import _Self from {importSource a}", s!"export * from {importSource a}",
      s!"export * from {importSource b}"]
  | some a, none | none, some a =>
    [s!"import _Self from {importSource a}", s!"export * from {importSource a}"]
  | none, none => ["const _Self = \x7b\x7d as any"]

def propsType (setup script : Option String) : String :=
  if setup.isSome || script.isSome then "InstanceType<typeof _Self>['$props']" else "\x7b\x7d"

def generate (file : String) (slots : List Slot) (blockId : Slot → Option String)
    (runtime : Option String) : MainModule :=
  let others := (slots.filter fun s => !s.isScript).filterMap blockId
  let setup := blockId .scriptSetup
  let script := blockId .script
  let name := componentName file
  { text := "\n".intercalate
      ((runtime.map fun r => s!"import {quote r}").toList ++
        others.map (fun id => s!"import {importSource id}") ++ scriptLines setup script ++
        [s!"export type __Props = {propsType setup script}", s!"const {name} = _Self",
          s!"export default {name}"])
    ids := sortedSet (others ++ setup.toList ++ script.toList) }

end MainModule

end BlockLens
