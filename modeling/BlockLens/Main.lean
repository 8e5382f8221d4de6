import BlockLens.Cli.Run

set_option autoImplicit false

namespace BlockLens.Cli

def causeOf : IO.Error → Cause
  | .noFileOrDirectory _ code _ => if code = 20 then .notDirectory else .notFound
  | .inappropriateType _ code _ => if code = 20 then .notDirectory else .isDirectory
  | .invalidArgument _ code text => if code = 36 then .nameTooLong else .other text
  | e => .other e.toString

def attempt {α : Type} (act : IO α) : IO (Except Cause α) := do
  try
    return .ok (← act)
  catch e => return .error (causeOf e)

def machine : Disk IO where
  resolve name := do
    match ← attempt (IO.FS.realPath name) with
    | .ok path => return .ok path.toString
    | .error c =>
      -- A failure to open the file tells the cause more exactly.
      match ← attempt (IO.FS.Handle.mk name .read) with
      | .error c => return .error c
      | .ok _ => return .error c
  read name := do
    match ← attempt (IO.FS.readBinFile name) with
    | .error c => return .error c
    | .ok bytes =>
      match String.fromUTF8? bytes with
      | some text => return .ok text
      | none => return .error .invalidText
  openLog name := attempt do
    let _ ← IO.FS.Handle.mk name .append

end BlockLens.Cli

def main (args : List String) : IO UInt32 := do
  let r ← BlockLens.Cli.run BlockLens.Cli.machine args
  IO.print r.stdout
  IO.eprint r.stderr
  return r.exit
