namespace Jack

/-- Lines count from 1, and so do the columns of a line, in characters. -/
structure Location where
  line : Nat
  column : Nat
deriving DecidableEq

namespace Location

def origin : Location := ⟨0, 0⟩

/-- The place of `c` when the character before it stands at `l`. A newline stands at column 0 of
the line that it opens. -/
def step (l : Location) (c : Char) : Location :=
  if c = '\n' then ⟨l.line + 1, 0⟩ else ⟨l.line, l.column + 1⟩

def after (l : Location) (cs : List Char) : Location :=
  cs.foldl step l

@[simp] theorem after_nil (l : Location) : l.after [] = l := rfl

@[simp] theorem after_cons (l : Location) (c : Char) (cs : List Char) :
    l.after (c :: cs) = (l.step c).after cs := rfl

theorem after_append (l : Location) (cs ds : List Char) :
    l.after (cs ++ ds) = (l.after cs).after ds := by
  simp [after]

def text (l : Location) : String :=
  toString l.line ++ ":" ++ toString l.column

end Location

end Jack
