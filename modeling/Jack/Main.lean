import Jack.CommandLine

namespace Jack

def onDisk (path : String) : IO.FS.DirEntry := ⟨⟨path⟩, ""⟩

/-- The fault that has a number, which may come with its sign changed. Of faults that have no words
here, the words are those that they come with. -/
def SystemFault.ofCode (code : UInt32) (words : String) : SystemFault :=
  let n := if code.toNat < 0x80000000 then code.toNat else 0x100000000 - code.toNat
  ([noEntry, notDirectory, isDirectory].find? (·.code = n)).getD ⟨words, n⟩

def SystemFault.ofError : IO.Error → SystemFault
  | .noFileOrDirectory _ code words | .inappropriateType _ code words
  | .permissionDenied _ code words | .resourceExhausted _ code words
  | .alreadyExists _ code words | .invalidArgument _ code words
  | .otherError code words | .resourceBusy code words | .hardwareFault code words =>
    .ofCode code words
  | e => ⟨toString e, 0⟩

def attempt {α : Type} (action : IO α) : IO (Except SystemFault α) := do
  try return .ok (← action)
  catch e => return .error (.ofError e)

instance : FileSystem IO where
  isDirectory path := (onDisk path).root.isDir
  list path := attempt do return (← (onDisk path).root.readDir).toList.map (·.fileName)
  read path := attempt (IO.FS.readBinFile (onDisk path).root)
  write path content := attempt (IO.FS.writeBinFile (onDisk path).root content)

end Jack

def main (arguments : List String) : IO UInt32 := do
  let result ← (Jack.CommandLine.run arguments).run
  if let .error failure := result then
    IO.eprint failure.report
  return Jack.CommandLine.exitStatus result
