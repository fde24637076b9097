import Jack.Fault
import Std.Data.HashMap

namespace Jack

def maxSlots : Nat := 65535

structure Scopes where
  ofClass : Std.HashMap String Variable := {}
  ofSubroutine : Std.HashMap String Variable := {}
  statics : Nat := 0
  fields : Nat := 0
  arguments : Nat := 0
  locals : Nat := 0

namespace Scopes

def empty : Scopes := {}

def count (s : Scopes) : VariableKind → Nat
  | .static => s.statics
  | .field => s.fields
  | .argument => s.arguments
  | .local => s.locals

/-- Is the name taken in the scope that variables of this kind are declared in? -/
def declares (s : Scopes) (kind : VariableKind) (name : String) : Bool :=
  match kind.extent with
  | .class => s.ofClass.contains name
  | .subroutine => s.ofSubroutine.contains name

def insert (s : Scopes) (name type : String) : VariableKind → Scopes
  | .static => { s with
      ofClass := s.ofClass.insert name ⟨name, type, .static, s.statics⟩, statics := s.statics + 1 }
  | .field => { s with
      ofClass := s.ofClass.insert name ⟨name, type, .field, s.fields⟩, fields := s.fields + 1 }
  | .argument => { s with
      ofSubroutine := s.ofSubroutine.insert name ⟨name, type, .argument, s.arguments⟩
      arguments := s.arguments + 1 }
  | .local => { s with
      ofSubroutine := s.ofSubroutine.insert name ⟨name, type, .local, s.locals⟩
      locals := s.locals + 1 }

theorem count_insert (s : Scopes) (name type : String) (kind k : VariableKind) :
    (s.insert name type kind).count k = s.count k + if k = kind then 1 else 0 := by
  cases kind <;> cases k <;> rfl

theorem declares_insert (s : Scopes) (name type : String) (kind k : VariableKind) (x : String) :
    (s.insert name type kind).declares k x =
      (k.extent = kind.extent && name == x || s.declares k x) := by
  cases kind <;> cases k <;>
    simp [declares, insert, VariableKind.extent, Std.HashMap.contains_insert]

/-- Why the name cannot be declared. A name that is taken is reported before a want of slots. -/
def refusal? (s : Scopes) (name : String) (kind : VariableKind) : Option Fault :=
  if s.declares kind name then some (.redeclared name)
  else if maxSlots ≤ s.count kind then some (.outOfRange (.slotsUsedUp kind name))
  else none

/-- Declares a name and answers its slot. An error is reported at `location` and leaves the scopes
as they were. -/
def declare (name type : String) (kind : VariableKind) (location : Location) :
    EStateM Error Scopes Nat := fun s =>
  match s.refusal? name kind with
  | some fault => .error ⟨location, fault⟩ s
  | none =>
    let slot := s.count kind
    .ok slot (s.insert name type kind)

/-- Names of the subroutine hide those of the class. -/
def resolve? (s : Scopes) (name : String) : Option Variable :=
  s.ofSubroutine[name]?.or s.ofClass[name]?

theorem resolve?_insert_of_subroutine (s : Scopes) (name type : String) {kind : VariableKind}
    (h : kind.extent = .subroutine) (x : String) :
    (s.insert name type kind).resolve? x =
      if name = x then some ⟨name, type, kind, s.count kind⟩ else s.resolve? x := by
  cases kind with
  | static | field => cases h
  | argument | «local» =>
    by_cases hx : name = x <;> simp [resolve?, insert, count, Std.HashMap.getElem?_insert, hx]

theorem resolve?_insert_of_class (s : Scopes) (name type : String) {kind : VariableKind}
    (h : kind.extent = .class) (x : String) :
    (s.insert name type kind).resolve? x =
      s.ofSubroutine[x]?.or
        (if name = x then some ⟨name, type, kind, s.count kind⟩ else s.ofClass[x]?) := by
  cases kind with
  | argument | «local» => cases h
  | static | field => simp [resolve?, insert, count, Std.HashMap.getElem?_insert]

def leaveSubroutine (s : Scopes) : Scopes :=
  { s with ofSubroutine := {}, arguments := 0, locals := 0 }

theorem count_leaveSubroutine (s : Scopes) (kind : VariableKind) :
    s.leaveSubroutine.count kind = if kind.extent = .class then s.count kind else 0 := by
  cases kind <;> rfl

theorem resolve?_leaveSubroutine (s : Scopes) (name : String) :
    s.leaveSubroutine.resolve? name = s.ofClass[name]? := by
  simp [resolve?, leaveSubroutine]

/-- Forgets the names of one extent. Those of a subroutine do not outlive those of its class. -/
def reset (s : Scopes) : Extent → Scopes
  | .class => empty
  | .subroutine => s.leaveSubroutine

end Scopes

end Jack
