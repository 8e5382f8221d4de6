import BlockLens.Document.BlockDocument
import BlockLens.Text.Base64
/-!
Generated text as the content of a file. It ends with a line that carries the version, and with the
source map where there is one; a failure is shown as a comment.
-/

set_option autoImplicit false

namespace BlockLens.Render

def withVersion (text : String) (version : Int) : String := s!"{text}\n//# version {version}"

def errorComment (message : String) : String := s!"/*\nError: {message}\n*/"

def spanJson (s : Span) : String :=
  "\x7b\"start\":" ++ toString s.start ++ ",\"end\":" ++ toString s.stop ++ "\x7d"

def segmentJson (s : Segment) : String :=
  "\x7b\"generated\":" ++ spanJson s.generated ++ ",\"original\":" ++ spanJson s.source ++ "\x7d"

def mapJson (m : SourceMap) : String :=
  "\x7b\"segments\":[" ++ ",".intercalate (m.segments.map segmentJson) ++ "]\x7d"

def mapComment (m : SourceMap) : String :=
  "\n//# sourceMappingURL=data:application/json;base64," ++
    String.ofList (Text.base64 (mapJson m).toUTF8.toList)

def output (out : Output) (version : Int) : String :=
  withVersion out.code version ++
    match out.mapping with
    | .segments m => mapComment m
    | .identity | .unmapped => ""

/-- Nothing for a block without a transformer. -/
def generated (g : Generated) (version : Int) : Option String :=
  match g with
  | .ok (some out) => some (output out version)
  | .ok none => none
  | .error e => some (errorComment e.message)

end BlockLens.Render
