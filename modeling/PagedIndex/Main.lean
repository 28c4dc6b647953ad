import PagedIndex.CommandLine

/-!
# The program

Reads the index file that is named, runs the command on it, and writes the file back if it was
changed.
-/

namespace PagedIndex

def folderExists (name : String) : IO Bool := do
  try
    let _ ← IO.FS.realPath (name ++ "/.")
    return true
  catch _ => return false

/-- The disk as far as the program can see it: the named file and the folders around it. -/
def readDisk (name : String) : IO Disk := do
  let folder := (FileName.parent? name).getD ""
  let tree : FileTree :=
    if folder == "" || !(← folderExists folder) then {} else (FileTree.makeFolders {} folder).1
  let tree := if ← folderExists name then (tree.makeFolders name).1 else tree
  try
    let bytes ← IO.FS.readBinFile name
    match tree.find name with
    | .ok (.missing place) =>
      let contents := Contents.ofBytes bytes.data.toList
      return { volumes := #[{ contents := contents }], tree := tree.insert place 0 }
    | _ => return { tree := tree }
  catch _ => return { tree := tree }

def contents? (disk : Disk) (name : String) : Option Bytes :=
  match disk.tree.find name with
  | .ok (.file _ volume) => some (disk.volume volume).contents.toBytes
  | _ => none

end PagedIndex

open PagedIndex in
def main (args : List String) : IO UInt32 := do
  let name := Index.fileName (args.headD "")
  let before ← readDisk name
  let (report, after) := CommandLine.run CommandLine.scanLimit args before
  match contents? before name, contents? after name with
  | old, some new => if old != some new then IO.FS.writeBinFile name ⟨new.toArray⟩
  | _, none => pure ()
  IO.print report.output
  IO.eprint report.errors
  return UInt32.ofNat report.exitCode
