import Kernelwright.Command

/-!
# The program

Reads the command line, the settings and the file of a request, runs the command and writes what it
has written.
-/

namespace Kernelwright

/-- Why a file could not be read. -/
def fileError : IO.Error → FileError
  | .noFileOrDirectory .. => .missing
  | .permissionDenied .. => .denied
  | .inappropriateType _ 20 _ => .notDirectory
  | .inappropriateType _ 21 _ => .isDirectory
  | e => .other (toString e)

def readText (path : String) : IO (Except FileError String) := do
  try
    match String.fromUTF8? (← IO.FS.readBinFile path) with
    | some text => return .ok text
    | none => return .error .notText
  catch e =>
    return .error (fileError e)

/-- The settings of the environment, read once. -/
def settings : IO (List (String × String)) := do
  let names := [Options.soaSetting, Options.guardsSetting, Options.commentsSetting,
    Options.devicesSetting, Options.printKernelSetting]
  let found ← names.mapM fun name => do
    return (← IO.getEnv name).map fun value => (name, value)
  return found.filterMap id

end Kernelwright

open Kernelwright in
def main (args : List String) : IO UInt32 := do
  match CommandLine.parse? args with
  | none =>
    (← IO.getStderr).putStrLn "marawacc: error: the arguments make no command"
    return 2
  | some c =>
    let found ← settings
    let file ← match c.file? with
      | some path => readText path
      | none => pure (.ok "")
    let (code, o) := c.run (fun name => found.lookup name) file
    (← IO.getStdout).putStr o.out
    (← IO.getStderr).putStr o.err
    return code.toUInt32
