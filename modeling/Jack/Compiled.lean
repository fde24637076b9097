import Jack.Code.Class
import Jack.Lexeme.Scan
import Jack.Parse.Fueled

namespace Jack

/-- What comes of a class. -/
structure Compiled where
  className : String
  commands : List VM.Command
  events : List Event
deriving DecidableEq

namespace Compiled

def vmText (p : Compiled) : String := VM.render p.commands

def xmlText (p : Compiled) : String := Event.xml p.events

end Compiled

/-- Parses the one class that is all of the stream. -/
def parse (w : Window) : Except Parse.Stop (Class × Window) := do
  let p ← Parse.classDec w
  match Window.consume [.eof] p.window with
  | .ok _ v => return (p.value, v)
  | .error e v => throw ⟨e, v⟩

/-- Compiles the one class that is all of the stream. -/
def compileItems (recorded : Bool) (items : Array Item) : Except Error Compiled := do
  let w ← Window.ofItems items
  match parse (if recorded then w.startRecord else w) with
  | .ok (tree, v) => return ⟨tree.name, tree.code, v.events⟩
  | .error stop => throw stop.error

def compile (recorded : Bool) (source : String) : Except Error Compiled :=
  compileItems recorded (Lexeme.scan source)

def compiledOf : Except Parse.Stop (Class × Window) → Except Error Compiled
  | .ok (tree, v) => .ok ⟨tree.name, tree.code, v.events⟩
  | .error s => .error s.error

/-- Compiles the one class that is all of the stream, unless the run is given up. -/
def compileWithin (build : Build) (fuel : Nat) (recorded : Bool) (items : Array Item) :
    Except Parse.Abort (Except Error Compiled) :=
  match Window.ofItems items with
  | .error e => .ok (.error e)
  | .ok w => Except.map compiledOf (Parse.Fueled.parse build fuel (if recorded then w.startRecord else w))

end Jack
