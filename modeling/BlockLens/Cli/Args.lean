import BlockLens.Text.Numeral
import BlockLens.Text.Scan
/-!
The command line. An option is given at most once and its value follows it, in the next argument or
behind an equals sign; the first argument that is no option names the file, and behind two dashes
nothing is an option.
-/

set_option autoImplicit false

namespace BlockLens.Cli

open Text

structure Args where
  file : Option String := none
  block : Option String := none
  map : Option Nat := none
  logLevel : Option String := none
  logFile : Option String := none
  main : Bool := false
  json : Bool := false
  watch : Bool := false
  noColor : Bool := false
  deriving DecidableEq, Repr

namespace Args

def once {α : Type} (old : Option α) (v : α) : Option (Option α) :=
  if old.isSome then none else some (some v)

def setFlag (a : Args) : String → Option Args
  | "--main" => if a.main then none else some { a with main := true }
  | "--json" => if a.json then none else some { a with json := true }
  | "--watch" => if a.watch then none else some { a with watch := true }
  | "--no-color" => if a.noColor then none else some { a with noColor := true }
  | _ => none

def takesValue (name : String) : Bool :=
  name = "--block" || name = "--map" || name = "--log-level" || name = "--log-file"

def setValue (a : Args) (name v : String) : Option Args :=
  match name with
  | "--block" => (once a.block v).map fun x => { a with block := x }
  | "--log-level" => (once a.logLevel v).map fun x => { a with logLevel := x }
  | "--log-file" =>
    if v.isEmpty then none else (once a.logFile v).map fun x => { a with logFile := x }
  | "--map" =>
    (signedWord? v.toList).bind fun n => (once a.map n).map fun x => { a with map := x }
  | _ => none

def setFile (a : Args) (v : String) : Option Args :=
  if v.isEmpty then none else (once a.file v).map fun x => { a with file := x }

def isOption (s : String) : Bool := startsWith ['-'] s.toList && s != "-"

def files (a : Args) : List String → Option Args
  | [] => some a
  | s :: r => (a.setFile s).bind fun a => a.files r

def read (a : Args) : List String → Option Args
  | [] => some a
  | s :: r =>
    if s = "--" then a.files r
    else if !isOption s then (a.setFile s).bind fun a => a.read r
    else
      match cut? ['='] s.toList with
      | some (name, v) => (a.setValue (String.ofList name) (String.ofList v)).bind fun a => a.read r
      | none =>
        if takesValue s then
          match r with
          | [] => none
          | v :: r' => if isOption v then none else (a.setValue s v).bind fun a => a.read r'
        else (a.setFlag s).bind fun a => a.read r

def parse? (l : List String) : Option Args := (read {} l).filter (·.file.isSome)

end Args

end BlockLens.Cli
