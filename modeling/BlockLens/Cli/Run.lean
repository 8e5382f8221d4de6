import BlockLens.Cli.Report
import BlockLens.Document.Defaults
import BlockLens.Text.Escaped

set_option autoImplicit false

namespace BlockLens.Cli

open Text

inductive Cause where
  | notFound
  | notDirectory
  | isDirectory
  | nameTooLong
  | nulInName
  | invalidText
  | other (message : String)
  deriving DecidableEq, Repr

def Cause.message : Cause → String
  | .notFound => "No such file or directory (os error 2)"
  | .notDirectory => "Not a directory (os error 20)"
  | .isDirectory => "Is a directory (os error 21)"
  | .nameTooLong => "File name too long (os error 36)"
  | .nulInName => "file name contained an unexpected NUL byte"
  | .invalidText => "stream did not contain valid UTF-8"
  | .other message => message

structure Disk (m : Type → Type) where
  /-- The absolute name, without dots and links. -/
  resolve : String → m (Except Cause String)
  read : String → m (Except Cause String)
  /-- Opens a file to write to its end, and makes it if there is none. -/
  openLog : String → m (Except Cause Unit)

structure Outcome where
  exit : UInt32
  stdout : String := ""
  stderr : String := ""
  deriving DecidableEq, Repr

/-- Causes are numbered when there are several; the lines of one are set in alike. -/
def causeLines (number : Option Nat) (cause : String) : String :=
  let mark := match number with
    | some n => padLeft 5 (toString n) ++ ": "
    | none => "    "
  let rest := match number with
    | some _ => "       "
    | none => "    "
  match cause.splitOn "\n" with
  | [] => mark
  | l :: ls => mark ++ ("\n" ++ rest).intercalate (l :: ls)

def errorText : List String → String
  | [] => "Error: \n"
  | [m] => s!"Error: {m}\n"
  | [m, c] => s!"Error: {m}\n\nCaused by:\n{causeLines none c}\n"
  | m :: cs =>
    s!"Error: {m}\n\nCaused by:\n" ++ "\n".intercalate (cs.mapIdx fun i c => causeLines (some i) c) ++
      "\n"

def outcome (notice : String) : Answer → Outcome
  | .ok text => ⟨0, text, notice⟩
  | .error causes => ⟨1, "", notice ++ errorText causes⟩

def readMessage (file : String) (c : Cause) : List String := [s!"Failed to read {file}", c.message]

/-- A host that knows the names that were read. -/
def hostOf (texts : List (String × Except Cause String)) : Host where
  has name := (texts.lookup name).any (·.toBool)
  read name :=
    match texts.lookup name with
    | some (.ok text) => .ok text
    | some (.error c) => .error (readMessage name c)
    | none => .error (readMessage name .notFound)

def logNotice (path : String) : String := s!"Logging to file: {escape path}\n"

/-- The names that a report on a file may read: the file, what stands in the place of its main
module if the file is no composite one, and a block given by name. -/
def namesFor (a : Args) (path : String) : List String :=
  [path, mainModuleName path] ++ a.block.toList

def runFile {m : Type → Type} [Monad m] (disk : Disk m) (a : Args) (file notice : String) :
    m Outcome := do
  match ← disk.resolve file with
  | .error c => return outcome notice (.error [s!"Failed to resolve {file}", c.message])
  | .ok path =>
    let texts ← (namesFor a path).mapM fun name => do return (name, ← disk.read name)
    return outcome notice (report (hostOf texts) .default a path)

def run {m : Type → Type} [Monad m] (disk : Disk m) (line : List String) : m Outcome := do
  match Args.parse? line with
  | none => return { exit := 2, stderr := "error: invalid command line\n" }
  | some a =>
    let file := a.file.getD ""
    match a.logFile with
    | none => runFile disk a file ""
    | some path =>
      match ← disk.openLog path with
      | .error c => return outcome "" (.error ["Failed to initialize logging", c.message])
      | .ok _ => runFile disk a file (logNotice path)

end BlockLens.Cli
