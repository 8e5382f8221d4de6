import BlockLens.Cli.Run

set_option autoImplicit false

namespace BlockLens.Cli

open Text

/-- Files by their path from the root; a directory is there if something lies in it. -/
structure FileTree where
  cwd : List String
  /-- No text for bytes that are not UTF-8. -/
  files : List (List String × Option String) := []

namespace FileTree

inductive Node where
  | file (text : Option String)
  | directory
  deriving DecidableEq, Repr

def node? (t : FileTree) (path : List String) : Option Node :=
  match t.files.lookup path with
  | some text => some (.file text)
  | none =>
    if path.isPrefixOf t.cwd || t.files.any (fun f => path.isPrefixOf f.1) then some .directory
    else none

def partLimit : Nat := 255

def nameLimit : Nat := 4095

def stepInto (t : FileTree) (path : List String) (part : String) : Except Cause (List String) :=
  match t.node? path with
  | none => .error .notFound
  | some (.file _) => .error .notDirectory
  | some .directory =>
    if part = "" || part = "." then .ok path
    else if part = ".." then .ok path.dropLast
    else if partLimit < bytes part then .error .nameTooLong
    else if (t.node? (path ++ [part])).isSome then .ok (path ++ [part])
    else .error .notFound

def walk (t : FileTree) : List String → List String → Except Cause (List String)
  | path, [] => .ok path
  | path, part :: parts =>
    match t.stepInto path part with
    | .ok p => t.walk p parts
    | .error c => .error c

def parts (name : String) : List String :=
  (pieces (· == '/') name.toList).map String.ofList

def start (t : FileTree) (name : String) : List String :=
  if startsWith ['/'] name.toList then [] else t.cwd

def find (t : FileTree) (name : String) : Except Cause (List String) :=
  if name.isEmpty then .error .notFound else t.walk (t.start name) (parts name)

def refuseNul (name : String) : Except Cause Unit :=
  if name.toList.contains '\x00' then .error .nulInName else .ok ()

def refuseLong (name : String) : Except Cause Unit :=
  if nameLimit < bytes name then .error .nameTooLong else .ok ()

/-- Goes from part to part, so that only the parts have a limit. -/
def resolve (t : FileTree) (name : String) : Except Cause String := do
  refuseNul name
  let path ← t.find name
  return "/" ++ "/".intercalate path

def read (t : FileTree) (name : String) : Except Cause String := do
  refuseNul name
  refuseLong name
  let path ← t.find name
  match t.files.lookup path with
  | some (some text) => return text
  | some none => throw .invalidText
  | none => throw .isDirectory

def isFile (t : FileTree) (name : String) : Bool :=
  match t.read name with
  | .ok _ => true
  | .error c => c = .invalidText

/-- The path of a file to be written, which need not be there. A name that ends with a slash or
with dots is that of a directory. -/
def target (t : FileTree) (name : String) : Except Cause (List String) := do
  refuseNul name
  refuseLong name
  let all := parts name
  match all.reverse.dropWhile (·.isEmpty) with
  | [] => throw (if name.isEmpty then .notFound else .isDirectory)
  | last :: before =>
    let path ← t.walk (t.start name) before.reverse
    match t.node? path with
    | none => throw .notFound
    | some (.file _) => throw .notDirectory
    | some .directory =>
      if last = "." || last = ".." || all.getLast? = some "" then throw .isDirectory
      if partLimit < bytes last then throw .nameTooLong
      return path ++ [last]

def openLog (t : FileTree) (name : String) : Except Cause Unit × FileTree :=
  match t.target name with
  | .error c => (.error c, t)
  | .ok path =>
    match t.node? path with
    | some (.file _) => (.ok (), t)
    | some .directory => (.error .isDirectory, t)
    | none => (.ok (), { t with files := t.files ++ [(path, some "")] })

def disk : Disk (StateM FileTree) where
  resolve name := return (← get).resolve name
  read name := return (← get).read name
  openLog name := modifyGet (·.openLog name)

def host (t : FileTree) : Host where
  has name := t.isFile name
  read name :=
    match t.read name with
    | .ok text => .ok text
    | .error c => .error (readMessage name c)

def runIn (t : FileTree) (line : List String) : Outcome := ((run disk line).run t).1

end FileTree

end BlockLens.Cli
