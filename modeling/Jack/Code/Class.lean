import Jack.Code.Statement

namespace Jack

open VM (Command)

def Declaration.total (ds : List Declaration) : Nat :=
  (ds.flatMap (·.names)).length

/-- Sets `pointer 0` to the current object. A constructor makes it, of as many words as it has
fields; a method is handed it as its first argument. -/
def SubroutineKind.prologue (fields : Nat) : SubroutineKind → List Command
  | .constructor => [.push .constant fields, .call "Memory.alloc" 1, .pop .pointer 0]
  | .method => [.push .argument 0, .pop .pointer 0]
  | .function => []

def Subroutine.code (className : String) (fields : Nat) (s : Subroutine) : List Command :=
  .function (className ++ "." ++ s.name) (Declaration.total s.locals) ::
    (s.kind.prologue fields ++ (Statement.codeAll .zero s.body).1)

namespace Class

def fields (c : Class) : Nat :=
  Declaration.total (c.declarations.filter (·.kind = .field))

def code (c : Class) : List Command :=
  c.subroutines.flatMap (·.code c.name c.fields)

end Class

end Jack
