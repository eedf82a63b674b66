import Phrasebook.CommandLine.Run

/-!
# The program

Reads the files that the command line names, prints the report and logs the notices.
-/

namespace Phrasebook

/-- What the file system has at a path. What is there but cannot be read counts as a directory. -/
def nodeOnDisk (path : String) : IO (Option Node) := do
  try
    return some (.file (← IO.FS.readBinFile path))
  catch
    | .noFileOrDirectory _ _ _ => return none
    | _ => return some .directory

/-- The files of the file system that a command line names. -/
def folderOnDisk (args : List String) : IO Folder := do
  match CommandLine.Request.ofArguments args with
  | .request r =>
    let items ← r.files.filterMapM fun file => do
      let path := FilePath.ofText file
      return (← nodeOnDisk path.toText).map fun node => (path, node)
    return { items }
  | _ => return {}

end Phrasebook

/-- Carries out the command line. -/
def main (args : List String) : IO UInt32 := do
  let ending := Phrasebook.CommandLine.run (← Phrasebook.folderOnDisk args) args
  for notice in ending.notices do
    IO.eprintln (notice.line Phrasebook.Fault.logged)
  IO.print ending.output
  match ending.exit with
  | .ok code =>
    if code = 2 then IO.eprintln Phrasebook.CommandLine.usage
    return code.toUInt32
  | .error fault =>
    IO.eprintln fault.message
    return 1
