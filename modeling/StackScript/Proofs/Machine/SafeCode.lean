import StackScript.Proofs.Compiler.WellFormed
import StackScript.Proofs.Machine.Safe

-- What a compiler writes is safe to run.
namespace StackScript

def Finished.region (k : Finished) : Region := ⟨k.code, k.locals, k.captures.length, k.nested⟩

theorem Symbol.Within.reads {symbol : Symbol} {k : Finished} (within : symbol.Within k) (sound : k.Sound) :
    k.region.Reads symbol.reading := by
  have range := (within.reading sound 0).1
  unfold Symbol.Within at within
  unfold Symbol.reading at range ⊢
  cases storage : symbol.storage <;> simp only [storage] at within range ⊢
  case global => trivial
  case frame => exact within.1
  case native => exact within
  case itself => exact within
  case captured =>
    obtain ⟨locals, captured, function, below⟩ := range
    simp only [Finished.place] at function
    split at function
    · cases function
      exact below
    · cases function

theorem Symbol.Within.writes {symbol : Symbol} {i : Instruction} {k : Finished} {a : Nat} (within : symbol.Within k)
    (kept : symbol.storage = .global ∨ symbol.storage = .frame)
    (writes : i = symbol.setting ∨ symbol.assigning? = some i) (item : k.code.itemAt a = .instruction i) :
    k.region.Writes i := by
  unfold Symbol.Within at within
  rcases Symbol.writing_shape kept writes with ⟨storage, rfl | rfl⟩ | ⟨storage, rfl | rfl⟩ <;> simp only [storage] at within
  · exact Code.operand_small item _ List.mem_cons_self
  · exact Code.operand_small item _ List.mem_cons_self
  · exact within.1
  · exact within.1

-- From a safe end back to the beginning.
theorem Balanced.safe {k : Finished} {p q : Point} {a b : Nat} (balanced : Balanced k p a q b) (sound : k.Sound)
    (valid : p.symbols.Valid) (rest : Safe k.constants k.region q.position b) :
    Safe k.constants k.region p.position a := by
  induction balanced with
  | nothing => exact rest
  | seq left _ first second => exact first sound valid (second sound (left.segment sound valid).valid rest)
  | @plain k p q i takes gives h effect lies =>
    obtain ⟨item, rfl⟩ := lies
    by_cases returns : i.opcode = .returnValue
    · obtain ⟨rfl, rfl, rfl⟩ := Instruction.effect_returnValue effect returns
      exact .returnValue item
    · exact .plain item effect returns rest
  | constant literal lies =>
    obtain ⟨present, item, rfl⟩ := lies
    exact .literal item present literal rest
  | resolve _ => exact rest
  | read lies =>
    obtain ⟨within, item, rfl⟩ := lies
    exact .read item (within.reads sound) rest
  | assign _ assigning within lies =>
    obtain ⟨item, rfl⟩ := lies
    exact .write item (within.writes (Symbol.assigning_kept assigning) (.inr assigning) item) rest
  | bind defined lies =>
    obtain ⟨within, item, rfl⟩ := lies
    exact .write item (within.writes (SymbolTable.define_kept defined) (.inl rfl) item) rest
  | bindEarly defined _ lies value =>
    obtain ⟨within, item, rfl⟩ := lies
    have stored := within.writes (SymbolTable.define_kept defined) (.inl rfl) item
    exact value sound (SymbolTable.define_valid valid defined) (.write item stored rest)
  | @choice k p a b c d q h first skip second leap third one two three =>
    have left := first.segment sound valid
    obtain ⟨skipItem, rfl⟩ := skip
    have middle := second.segment sound left.valid
    obtain ⟨leapItem, rfl⟩ := leap
    have last := three sound middle.valid rest
    exact one sound valid (.jumpUnless skipItem last (two sound left.valid (.jump leapItem rest)))
  | @function k p q m e last own parameters code scope first table i height h declares inner ends ret size left few slots
      captures compiled made loading same making body reads =>
    have segment := Balanced.segment (.function declares inner ends ret size left few slots captures compiled made loading
      same making) sound valid
    have entered := declares.entered valid
    have inside := inner.segment (fun plain => by cases plain) entered
    obtain ⟨retItem, rfl⟩ := ret
    obtain ⟨-, -, around, -⟩ := declares.leave_shape valid inside.grows inside.valid left
    have closing : Safe k.constants (k.inner code scope).region e.position height := by
      rcases ends with ⟨rfl, rfl⟩ | ⟨rfl, rfl⟩
      · exact .returnValue retItem
      · exact .returnNull retItem
    have body := body (fun plain => by cases plain) entered closing
    have region : (k.inner code scope).region =
        Routine.region ⟨code, parameters.length, scope.slots⟩ scope.captures.size := by
      simp [Finished.region, Finished.inner, Routine.region]
    rw [region] at body
    obtain ⟨makeItem, rfl⟩ := making
    have routine := segment.functions _ _ inside.constants (by simp only [same]; omega) made
    refine reads sound around ?_
    rw [Layout.making] at makeItem rest
    split at makeItem
    · rename_i captureless
      rw [if_pos captureless] at rest
      rw [captureless] at body ⊢
      exact .function makeItem made routine.parameters routine.locals body rest
    · rename_i captures
      rw [if_neg captures] at rest
      exact .closure makeItem made routine.parameters routine.locals body rest

namespace Compiler

-- What is known of a main program that is compiled behind some constants.
structure Done (constants : Array Value) (c : Compiler) : Prop where
  symbols : c.symbols.Valid
  main : c.symbols.enclosing = []
  constants : constants.toList <+: c.constants.toList
  bytecode : c.bytecode = ⟨c.fragment.code, c.constants⟩
  formed : c.fragment.code.WellFormed ⟨c.constants, c.constants.size, c.symbols.globals, none⟩
  safe : Safe c.constants ⟨c.fragment.code, 0, 0, false⟩ 0 0

theorem compile_done {symbols : SymbolTable} {constants : Array Value} {p : Program} {c : Compiler} (valid : symbols.Valid)
    (main : symbols.enclosing = []) (run : (resume symbols constants).compile p = .ok () c) : c.Done constants := by
  obtain ⟨grown, done, outermost, lies⟩ := compile_lies (resume_ready valid constants) main run
  have balanced := Layout.statements_adds p.statements _ _ _ 0 lies
  refine ⟨done.symbols, outermost, grown.constants, ?_, ?_, ?_⟩
  · rw [Compiler.bytecode, grown.enclosing]
    rfl
  · exact (balanced.segment (fun _ => rfl) valid).wellFormed rfl rfl
  · exact balanced.safe (fun _ => rfl) valid (.ends rfl)

end Compiler
end StackScript
