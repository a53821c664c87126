import StackScript.Proofs.Compiler.Resuming
import StackScript.Proofs.Machine.Continued
import StackScript.Proofs.Machine.SafeCode

-- A program that is compiled and run in two parts, the second on what the first left, does what it does in one.
namespace StackScript

def Program.andThen (p q : Program) : Program := { p with statements := p.statements ++ q.statements }

namespace Compiler

open Instruction (raise assemble)

section
variable {before : Array Value} {c d e : Compiler} {written is : List Instruction} {bytes : List UInt8}
  (front : c.Done before) (back : d.Done c.constants) (assembled : assemble written = .ok c.fragment.code.toList)
  (alone : assemble is = .ok d.fragment.code.toList) (moved : assemble (is.map (raise c.fragment.code.size)) = .ok bytes)
  (code : e.fragment.code.toList = c.fragment.code.toList ++ bytes) (constants : d.constants = e.constants)

-- The first part stands at the beginning of the whole, among more constants.
def ahead (c e : Compiler) : Displacement := ⟨c.fragment.code, e.fragment.code, 0, e.constants, #[], False⟩

-- The second part stands behind it.
def behind (c d e : Compiler) (printed : Array String) : Displacement :=
  ⟨d.fragment.code, e.fragment.code, c.fragment.code.size, e.constants, printed, True⟩

include front assembled code in
theorem ahead_sound : (ahead c e).Sound := by
  have same : written.map (raise 0) = written := by simp [funext Instruction.raise_zero]
  have moved : assemble (written.map (raise 0)) = .ok c.fragment.code.toList := by rw [same, assembled]
  have here : e.fragment.code.toList = [] ++ (c.fragment.code.toList ++ bytes) := code
  exact .of_assembled assembled moved (Code.holds_between here) front.formed rfl

include back alone moved code in
theorem behind_sound (printed : Array String) : (behind c d e printed).Sound := by
  refine .of_assembled alone moved ?_ back.formed rfl
  rw [← List.append_nil bytes] at code
  exact Code.holds_between code

include alone moved code in
theorem behind_size : e.fragment.code.size = c.fragment.code.size + d.fragment.code.size := by
  have same : (is.map (raise c.fragment.code.size)).map Instruction.opcode = is.map Instruction.opcode := by simp
  rw [← Array.length_toList, code, List.length_append, Instruction.assemble_length moved, same,
    ← Instruction.assemble_length alone, Array.length_toList, Array.length_toList]

include front back assembled alone moved code constants in
-- The code of two parts together is run as that of the first and then, on the globals it leaves, that of the second.
theorem Done.runs_on {globals : Array Value} {budget : Nat} {m : Machine}
    (halts : (Machine.start ⟨c.fragment.code, c.constants⟩ globals).run budget = (.halted, m))
    (stays : ¬ (Machine.start ⟨c.fragment.code, c.constants⟩ globals).ReturnsFromMain) :
    ∃ steps, ∀ more ending n, (Machine.start ⟨d.fragment.code, d.constants⟩ m.globals).run more = (ending, n) →
      ∃ o, (Machine.start ⟨e.fragment.code, e.constants⟩ globals).run (steps + more) = (ending, o) ∧
        Machine.Shows m.output n o := by
  have whole := front.formed.whole
  have begins : (ahead c e).Frames ⟨⟨c.fragment.code, 0, 0⟩, [], 0, 0⟩ ⟨⟨e.fragment.code, 0, 0⟩, [], 0, 0⟩ :=
    ⟨rfl, rfl, ⟨rfl, rfl⟩, rfl, rfl, rfl, .here⟩
  have beside : (ahead c e).Beside (Machine.start ⟨c.fragment.code, c.constants⟩ globals)
      (Machine.start ⟨e.fragment.code, e.constants⟩ globals) :=
    ⟨⟨rfl, rfl⟩, rfl, constants ▸ back.constants, False.elim, rfl, .main rfl rfl begins⟩
  obtain ⟨steps, z, runs, beside, main, stack, item⟩ := Displacement.run_until (ahead_sound front assembled code) whole rfl
    beside (.main rfl rfl front.safe (Nat.le_refl 0)) halts stays
  have frames := beside.stands.frames main
  have last : m.frame.next = c.fragment.code.size := by
    rcases beside.stands.follows whole main with ⟨here, -⟩ | ⟨i, other⟩
    · exact here
    · rw [item] at other
      cases other
  have goesOn : (behind c d e m.output).Frames ⟨⟨d.fragment.code, 0, 0⟩, [], 0, 0⟩ z.frame :=
    ⟨rfl, frames.whole, ⟨rfl, rfl⟩, frames.base.trans frames.outermost.1, frames.captured.trans frames.outermost.2,
      by rw [frames.next, last]; exact Nat.add_comm _ _, .here⟩
  have pool : z.constants = d.constants := beside.pool.trans constants.symm
  have output : z.output = m.output ++ #[] := by
    rw [beside.output, Array.append_empty]
    exact Array.empty_append
  have later : (behind c d e m.output).Beside (Machine.start ⟨d.fragment.code, d.constants⟩ m.globals) z :=
    ⟨⟨beside.globals, output⟩, beside.pool, by rw [pool]; exact List.prefix_rfl, fun _ => pool.symm,
      beside.stack.trans stack, .main rfl (beside.stands.empty.mpr main) goesOn⟩
  refine ⟨steps, fun more ending n run => ?_⟩
  rw [runs more]
  exact Displacement.run_twins (behind_sound back alone moved code m.output) trivial back.formed.whole
    (behind_size alone moved code) later run

end

end Compiler

open Instruction (raise assemble)

namespace Program

-- Where the whole of two programs compiles, each of them compiles behind what is known before it, to the parts of the code
-- of the whole; and if the first one runs to the end of its code, then what the whole does is what they do in turn.
theorem andThen_incremental (p q : Program) (e : Compiler) (run : Compiler.new.compile (p.andThen q) = .ok () e) :
    ∃ c d, Compiler.new.compile p = .ok () c ∧ (Compiler.resume c.symbols c.constants).compile q = .ok () d ∧
      d.symbols = e.symbols ∧ d.constants = e.constants ∧
      (∃ is bytes, assemble is = .ok d.bytecode.code.toList ∧ assemble (is.map (raise c.bytecode.code.size)) = .ok bytes ∧
        e.bytecode.code.toList = c.bytecode.code.toList ++ bytes) ∧
      ∀ globals budget m, (Machine.start c.bytecode globals).run budget = (.halted, m) →
        ¬ (Machine.start c.bytecode globals).ReturnsFromMain →
        ∃ steps, ∀ more ending n, (Machine.start d.bytecode m.globals).run more = (ending, n) →
          ∃ o, (Machine.start e.bytecode globals).run (steps + more) = (ending, o) ∧ o.globals = n.globals ∧
            o.output = m.output ++ n.output := by
  obtain ⟨natives, outermost⟩ := Compiler.nativeNames_valid
  obtain ⟨c, first, second⟩ := Compiling.statements_append_ok.mp run
  have whole := Compiler.compile_done natives outermost run
  have front : c.Done #[] := Compiler.compile_done (p := p) natives outermost first
  obtain ⟨written, assembled⟩ := Compiler.compile_assembles (p := p) first
  obtain ⟨d, is, bytes, ran, symbols, constants, alone, moved, code⟩ := Compiler.compile_resumed (p := q) assembled second
  have back := Compiler.compile_done front.symbols front.main ran
  refine ⟨c, d, first, ran, symbols, constants, ?_, ?_⟩ <;> rw [front.bytecode, back.bytecode, whole.bytecode]
  · exact ⟨is, bytes, alone, moved, code⟩
  · intro globals budget m halts stays
    obtain ⟨steps, runs⟩ := front.runs_on back assembled.alone alone moved code constants halts stays
    refine ⟨steps, fun more ending n run => ?_⟩
    obtain ⟨o, run', shows⟩ := runs more ending n run
    exact ⟨o, run', shows.globals, shows.output⟩

-- let add = fn(x) { x + 40 };
def adding : Program :=
  ⟨[.declare .unknown .fixed "add" (.function .unknown (some "add") ["x"]
    [.expression .unknown (.binary .unknown "+" (.identifier .unknown "x") (.integer .unknown 40))])], none⟩

-- puts(if (add(2) > 41) { "many" } else { "few" })
def counting : Program :=
  ⟨[.expression .unknown (.call .unknown (.identifier .unknown "puts") [.conditional .unknown
    (.binary .unknown ">" (.call .unknown (.identifier .unknown "add") [.integer .unknown 2]) (.integer .unknown 41))
    [.expression .unknown (.string .unknown "many")] (some [.expression .unknown (.string .unknown "few")])])], none⟩

theorem andThen_incremental_counting : ∃ e, Compiler.new.compile (adding.andThen counting) = .ok () e ∧
    ∃ budget o, (Machine.start e.bytecode #[]).run budget = (.halted, o) ∧ o.output = #["many"] := by
  obtain ⟨e, run⟩ : (adding.andThen counting).Compiles := by decide +kernel
  obtain ⟨c, d, first, second, -, -, -, runs⟩ := andThen_incremental adding counting e run
  have front : (match Compiler.new.compile adding with
      | .ok _ c => some (((Machine.start c.bytecode #[]).run 3).1,
        (List.range 3).all fun early => !((Machine.start c.bytecode #[]).run early).2.returnsNext)
      | .error _ _ => none) = some (.halted, true) := by decide +kernel
  have back : (match Compiler.new.compile adding with
      | .ok _ c => match (Compiler.resume c.symbols c.constants).compile counting with
        | .ok _ d =>
          let run := (Machine.start d.bytecode ((Machine.start c.bytecode #[]).run 3).2.globals).run 20
          some (run.1, run.2.output, ((Machine.start c.bytecode #[]).run 3).2.output)
        | .error _ _ => none
      | .error _ _ => none) = some (.halted, #["many"], #[]) := by decide +kernel
  rw [first] at front back
  simp only [second, Option.some.injEq, Prod.mk.injEq, List.all_eq_true, List.mem_range, Bool.not_eq_true'] at front back
  obtain ⟨ended, each⟩ := front
  obtain ⟨ended', shown, before⟩ := back
  generalize ran : (Machine.start c.bytecode #[]).run 3 = outcome at ended ended' shown before
  obtain ⟨ending, m⟩ := outcome
  cases ended
  obtain ⟨steps, behind⟩ := runs #[] 3 m ran (Machine.stays_of_run ran (by simp) each)
  generalize ran' : (Machine.start d.bytecode m.globals).run 20 = outcome at ended' shown
  obtain ⟨ending, n⟩ := outcome
  cases ended'
  obtain ⟨o, halts, -, output⟩ := behind 20 .halted n ran'
  simp only at shown before
  refine ⟨e, run, steps + 20, o, halts, ?_⟩
  rw [output, shown, before]
  rfl

end Program
end StackScript
