import Jack.CommandLine
import Jack.FileTree
import Jack.Proofs.Reading.Whole
import Jack.Proofs.Window.Operation

namespace Jack

namespace CommandLine

section Store

variable {m : Type → Type} [Monad m] [FileSystem m]

def storeCode (path source : String) : ExceptT Failure m Unit :=
  match compile false source with
  | .error e => throw (.uncompiled path e)
  | .ok program => writeText (Path.withExtension path "vm") program.vmText

def storeTrace (path source : String) : ExceptT Failure m Unit :=
  match compile true source with
  | .error e => throw (.uncompiled path e)
  | .ok program => writeText (Path.withExtension path "xml") program.xmlText

theorem compile_false (source : String) :
    compile false source = (compile true source).map Compiled.withoutEvents :=
  compileItems_false _

/-- The code is stored first, and that without regard to the trace. -/
theorem compileFile_eq [LawfulMonad m] (xml : Bool) (path : String) :
    (compileFile xml path : ExceptT Failure m Unit) = (do
      let source ← readText path
      storeCode path source
      if xml then storeTrace path source) := by
  have hthrow (e : Failure) (f : Unit → ExceptT Failure m Unit) : (throw e >>= f) = throw e := by
    simp [throw, throwThe, MonadExceptOf.throw, bind, ExceptT.bind, ExceptT.mk, ExceptT.bindCont]
  unfold compileFile
  congr 1
  funext source
  have hc := compile_false source
  rw [storeCode, hc]
  cases ht : compile true source with
  | error e =>
    have hx : compile xml source = .error e := by
      cases xml with
      | true => exact ht
      | false => rw [hc, ht]; rfl
    rw [hx]
    exact (hthrow _ _).symm
  | ok p =>
    cases xml with
    | true =>
      rw [storeTrace, ht]
      rfl
    | false =>
      rw [hc, ht]
      rfl

end Store

end CommandLine

open CommandLine

/-- With a record or without, a stream leads to the same error, or to the same class with the same code,
and without a record no events come along. To operate on the record changes no other answer of a window, and
nothing that it shows. So the code that is stored for a source is the same with a trace and without. -/
theorem records_are_not_observed :
    (∀ items : Array Item,
      compileItems false items = (compileItems true items).map Compiled.withoutEvents) ∧
    (∀ (w : Window) (ops ops' : List Window.Operation),
      (ops.filter fun op => !op.records) = ops'.filter (fun op => !op.records) →
        w.observed ops = w.observed ops') ∧
    ∀ (m : Type → Type) [Monad m] [LawfulMonad m] [FileSystem m] (xml : Bool) (path : String),
      (compileFile xml path : ExceptT Failure m Unit) = (do
        let source ← readText path
        storeCode path source
        if xml then storeTrace path source) := by
  refine ⟨compileItems_false, fun w ops ops' h => ?_, fun m _ _ _ => compileFile_eq⟩
  have hv : w.SameView w := ⟨rfl, rfl, rfl, rfl⟩
  rw [hv.observed ops, hv.observed ops', h]

theorem moves_do_not_observe_records :
    let w : Window := ⟨#[.ok ⟨.keyword .class, ⟨1, 1⟩⟩, .ok ⟨.identifier "A", ⟨1, 7⟩⟩], 1, ⟨.eof, .origin⟩,
      ⟨.keyword .class, ⟨1, 1⟩⟩, none⟩
    w.observed [.startRecord, .consume [.keyword .class], .enter .class, .takeRecord, .consume [.eof]] =
      w.observed [.consume [.keyword .class], .consume [.eof]] ∧
    (compileFile true "A.jack" : ExceptT Failure (StateM FileTree) Unit) = (do
      let source ← readText "A.jack"
      storeCode "A.jack" source
      storeTrace "A.jack" source) :=
  ⟨records_are_not_observed.2.1 _ _ _ rfl, records_are_not_observed.2.2 _ true _⟩

end Jack
