namespace Jack

structure SystemFault where
  description : String
  code : Nat
deriving DecidableEq

namespace SystemFault

def noEntry : SystemFault := ⟨"No such file or directory", 2⟩

def notDirectory : SystemFault := ⟨"Not a directory", 20⟩

def isDirectory : SystemFault := ⟨"Is a directory", 21⟩

def message (f : SystemFault) : String :=
  f.description ++ " (os error " ++ toString f.code ++ ")"

end SystemFault

class FileSystem (m : Type → Type) where
  isDirectory : String → m Bool
  list : String → m (Except SystemFault (List String))
  read : String → m (Except SystemFault ByteArray)
  /-- Makes the file, or puts the new content in the place of the old. -/
  write : String → ByteArray → m (Except SystemFault Unit)

end Jack
