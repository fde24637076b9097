import Jack.VM.Command

namespace Jack

structure IfLabels where
  onTrue : VM.Label
  onFalse : VM.Label
  done : VM.Label
deriving DecidableEq

structure WhileLabels where
  condition : VM.Label
  done : VM.Label
deriving DecidableEq

/-- How many labels of either sort have been given out. -/
structure LabelCount where
  ifs : Nat
  whiles : Nat
deriving DecidableEq

namespace LabelCount

def zero : LabelCount := ⟨0, 0⟩

def forIf (k : LabelCount) : IfLabels × LabelCount :=
  (⟨⟨.ifTrue, k.ifs⟩, ⟨.ifFalse, k.ifs⟩, ⟨.ifEnd, k.ifs⟩⟩, { k with ifs := k.ifs + 1 })

def forWhile (k : LabelCount) : WhileLabels × LabelCount :=
  (⟨⟨.whileCondition, k.whiles⟩, ⟨.whileEnd, k.whiles⟩⟩, { k with whiles := k.whiles + 1 })

end LabelCount

end Jack
