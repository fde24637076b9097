import Jack.FileSystem
import Jack.Path

namespace Jack

inductive FileTree.Entry where
  | directory
  | file (content : ByteArray)

/-- Each directory and file is entered under the names that lead to it from the root. The root has
no entry. -/
structure FileTree where
  workingDirectory : List String
  entries : List (List String × FileTree.Entry)

namespace FileTree

def get? (t : FileTree) (place : List String) : Option Entry :=
  if place = [] then some .directory else t.entries.lookup place

def put (t : FileTree) (place : List String) (e : Entry) : FileTree :=
  { t with entries := (place, e) :: t.entries.filter (·.1 ≠ place) }

def makeDirectories (t : FileTree) (place : List String) : List String → FileTree
  | [] => t
  | name :: names =>
    let place := place ++ [name]
    match t.get? place with
    | some _ => t.makeDirectories place names
    | none => (t.put place .directory).makeDirectories place names

/-- The tree with nothing but a working directory, and what that lies in. -/
def ofWorkingDirectory (place : List String) : FileTree :=
  makeDirectories ⟨place, []⟩ [] place

def follow (t : FileTree) (place : List String) : List String → Except SystemFault (List String)
  | [] => .ok place
  | name :: names =>
    match t.get? place with
    | some .directory =>
      if name = "" ∨ name = "." then t.follow place names
      else if name = ".." then t.follow place.dropLast names
      else if (t.get? (place ++ [name])).isSome then t.follow (place ++ [name]) names
      else .error .noEntry
    | _ => .error .notDirectory

def start (t : FileTree) (path : String) : List String :=
  if path.startsWith "/" then [] else t.workingDirectory

/-- The place that a path leads to. The empty path leads nowhere. -/
def find (t : FileTree) (path : String) : Except SystemFault (List String) :=
  if path = "" then .error .noEntry else t.follow (t.start path) (Path.segments path)

/-- The place that the file of a path has or would have. A path without a last name, or with dots for
it, is that of a directory. -/
def findParent (t : FileTree) (path : String) : Except SystemFault (List String) := do
  if path = "" then throw .noEntry
  let (directory, name) := Path.splitName path
  let place ← t.follow (t.start path) (Path.segments directory)
  match t.get? place with
  | some .directory =>
    if name = "" ∨ name = "." ∨ name = ".." then throw .isDirectory
    return place ++ [name]
  | _ => throw .notDirectory

def isDirectory (t : FileTree) (path : String) : Bool :=
  match t.find path with
  | .ok place =>
    match t.get? place with
    | some .directory => true
    | _ => false
  | .error _ => false

def namesIn (t : FileTree) (place : List String) : List String :=
  t.entries.filterMap fun (p, _) =>
    if p ≠ [] ∧ p.dropLast = place then p.getLast? else none

def list (t : FileTree) (path : String) : Except SystemFault (List String) := do
  let place ← t.find path
  match t.get? place with
  | some .directory => return t.namesIn place
  | _ => throw .notDirectory

def read (t : FileTree) (path : String) : Except SystemFault ByteArray := do
  let place ← t.find path
  match t.get? place with
  | some (.file content) => return content
  | some .directory => throw .isDirectory
  | none => throw .noEntry

def write (t : FileTree) (path : String) (content : ByteArray) : Except SystemFault FileTree := do
  let place ← t.findParent path
  match t.get? place with
  | some .directory => throw .isDirectory
  | _ => return t.put place (.file content)

instance : FileSystem (StateM FileTree) where
  isDirectory path := return (← get).isDirectory path
  list path := return (← get).list path
  read path := return (← get).read path
  write path content t :=
    match t.write path content with
    | .ok t => (.ok (), t)
    | .error f => (.error f, t)

end FileTree

end Jack
