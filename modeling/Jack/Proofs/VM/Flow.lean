import Jack.Proofs.VM.Height

namespace Jack.VM

namespace Command

@[simp] def jump? : Command → Option Label
  | .goto l | .ifGoto l => some l
  | _ => none

/-- May control go on to the next command? -/
@[simp] def fallsThrough : Command → Bool
  | .goto _ | .return => false
  | _ => true

end Command

def jumps (code : List Command) : List Label :=
  code.filterMap Command.jump?

@[simp] theorem jumps_nil : jumps [] = [] := rfl

@[simp] theorem jumps_cons (c : Command) (code : List Command) :
    jumps (c :: code) = c.jump?.toList ++ jumps code := by
  cases h : c.jump? with
  | none => exact List.filterMap_cons_none h
  | some l => exact List.filterMap_cons_some h

@[simp] theorem jumps_append (c d : List Command) : jumps (c ++ d) = jumps c ++ jumps d :=
  List.filterMap_append

/-- Control may go from one place of the block to the other. The place behind the last command is the
end of the block. -/
inductive Flows (block : List Command) : Nat → Nat → Prop
  | next {i : Nat} {c : Command} (hc : block[i]? = some c) (hf : c.fallsThrough) :
    Flows block i (i + 1)
  | jump {i j : Nat} {c : Command} {l : Label} (hc : block[i]? = some c) (hl : c.jump? = some l)
    (hj : block[j]? = some (.label l)) : Flows block i j

end Jack.VM
