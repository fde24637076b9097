import Jack.Text

namespace Jack.Path

def splitName (path : String) : String × String :=
  let cs := path.toList.reverse
  (String.ofList (cs.dropWhile (· ≠ '/')).reverse, String.ofList (cs.takeWhile (· ≠ '/')).reverse)

/-- A name without its extension, and the extension. A dot that the name begins with starts none. -/
def splitExtension (name : String) : String × Option String :=
  let cs := name.toList.reverse
  match cs.dropWhile (· ≠ '.') with
  | _ :: c :: stem =>
    (String.ofList (c :: stem).reverse, some (String.ofList (cs.takeWhile (· ≠ '.')).reverse))
  | _ => (name, none)

def extension? (name : String) : Option String :=
  (splitExtension name).2

/-- Puts `extension` in the place of the extension of the last name, or behind a name that has none.
The old extension goes and its dot stays: where that leaves `..`, the path leads to a directory, and
directories take no extension. -/
def withExtension (path extension : String) : String :=
  let (directory, name) := splitName path
  match splitExtension name with
  | (".", some _) => directory ++ ".."
  | (stem, _) => directory ++ stem ++ "." ++ extension

def join (directory name : String) : String :=
  if directory.endsWith "/" then directory ++ name else directory ++ "/" ++ name

/-- The names to follow one after the other. An empty one comes from doubled slashes, or from one at
the end. -/
def segments (path : String) : List String :=
  Text.split '/' path

end Jack.Path
