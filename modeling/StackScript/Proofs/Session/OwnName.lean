import StackScript.Proofs.Compiler.Pool
import StackScript.Proofs.Machine.Tracing
import StackScript.Proofs.Session.Safety

-- What the name of a function denotes inside of it, and inside of the functions that captured it.
namespace StackScript

open Machine (Onward Traces CalledAs Traceable)

-- Only functions have a name of their own.

theorem Safe.nested {pool : Array Value} {r : Region} {a h : Nat} {i : Instruction} (safe : Safe pool r a h)
    (item : r.code.itemAt a = .instruction i) (own : i.opcode = .currentClosure) : r.nested = true := by
  have differs {j : Instruction} (here : r.code.itemAt a = .instruction j) : j = i :=
    Code.Item.instruction.inj (here.symm.trans item)
  cases safe with
  | ends => simp [Code.itemAt] at item
  | plain here effect =>
    cases differs here
    unfold Instruction.effect? at effect
    split at effect <;> cases effect <;> cases own
  | read here reads =>
    cases differs here
    rcases reads.known with known | ⟨-, nested⟩
    · simp [Instruction.usage?, own, Running.usage] at known
    · exact nested
  | write here writes =>
    cases differs here
    have known := writes.usage
    simp [Instruction.usage?, own, Running.usage] at known
  | literal here | function here | closure here | jump here | jumpUnless here | returnValue here | returnNull here =>
    cases differs here
    cases own

theorem Machine.Sound.nested {pool : Array Value} {m : Machine} (sound : m.Sound pool)
    (own : m.opcode? = some .currentClosure) : m.callers ≠ #[] := by
  obtain ⟨operands, item⟩ := opcode_some own
  obtain ⟨nested, h, size, good, -, -, called⟩ := sound.chain.move
  obtain ⟨caller, rest, callers, -⟩ := called (good.safe.nested item rfl)
  intro main
  simp [main] at callers

-- A program starts with nothing but its constants, and the functions among them gather what their closures capture.
theorem Compiler.compile_traceable {p : Program} {c : Compiler} (compiled : Compiler.new.compile p = .ok () c) :
    Traceable (Machine.start c.bytecode #[]) (Machine.start c.bytecode #[]) := by
  obtain ⟨valid, main⟩ := Compiler.nativeNames_valid
  have done := Compiler.compile_done valid main compiled
  have feeds := Compiler.compile_feeds valid main compiled (by simp)
  have pooled := Compiler.compile_pooled valid main compiled (by simp)
  have fed := Compiler.compile_fed valid main compiled
  have hereditary := Value.Traced.hereditary (Machine.start c.bytecode #[])
  rw [done.bytecode] at hereditary ⊢
  have all : (Machine.start ⟨c.fragment.code, c.constants⟩ #[]).All
      (Value.Traced (Machine.start ⟨c.fragment.code, c.constants⟩ #[])) := by
    refine ⟨fun v present => ?_, by simp [Machine.start], by simp [Machine.start], .closure fed (.inl rfl) (by simp [Machine.start]),
      by simp [Machine.start]⟩
    rcases pooled v present with literal | ⟨r, rfl⟩
    · cases v with
      | integer n => exact hereditary.simple rfl rfl
      | float x => exact hereditary.simple rfl rfl
      | string s => exact hereditary.simple rfl rfl
      | _ => exact literal.elim
    · exact .function (feeds r present)
  exact ⟨all, ⟨[], .nil (.here (Nat.zero_le _)), by simp, fed⟩, by simp [Machine.start]⟩

namespace Session

-- Wherever a name is read, its value is the one that was read first for it: by the running function itself, or by the one
-- around it that made its closure. If that was the own name of a function, this runs in a call, and its name denotes the
-- value that was called when that is a closure, and equals it as far as that equals itself: a closure that holds a NaN does
-- not. A function that has captured nothing is called as the constant that it is; its name denotes a closure over nothing,
-- which does the same but is not equal to it.
theorem own_name_denotes {p : Program} {c : Compiler} (compiled : Compiler.new.compile p = .ok () c) {m : Machine}
    {v : Value} (reached : Onward 0 (Machine.start c.bytecode #[]) m) (reads : m.reads? = some v) :
    (∀ n, Running.step m = .ok .next n → n.stack = m.stack.push v) ∧
      (∃ o, Traces (Machine.start c.bytecode #[]) m o) ∧ ∀ o, Traces (Machine.start c.bytecode #[]) m o →
        o.reads? = some v ∧ (o.opcode? = some .currentClosure → (∃ w, CalledAs (Machine.start c.bytecode #[]) o w) ∧
          ∀ w, CalledAs (Machine.start c.bytecode #[]) o w →
            (∃ routine captured, w = .closure routine captured ∧ v = w ∧ v.same w = w.same w) ∨
              ∃ routine, w = .function routine ∧ v = .closure routine [] ∧ v.same w = false) := by
  have begins : (Machine.start c.bytecode #[]).callers = #[] := rfl
  have traceable := Compiler.compile_traceable compiled |>.onward begins rfl reached
  have sound (o : Machine) (there : Onward 0 (Machine.start c.bytecode #[]) o) : o.Sound c.constants :=
    there.sound (start_sound new_sound compiled).2.2
  refine ⟨fun n run => ?_, traceable.traces begins rfl reads, fun o traces => ?_⟩
  · obtain ⟨-, next, rfl⟩ := Machine.step_reads reads run
    rfl
  · have same := traces.value reads
    refine ⟨same, fun own => ⟨?_, fun w called => ?_⟩⟩
    · have there := traces.reached reached
      exact Machine.called_of_reached there begins ((sound o there).nested own)
    · have denotes : v = .closure o.frame.routine o.frame.captured := Machine.own_reads own same
      exact called.denotes denotes

-- let f = fn() { fn() { f } }; f()();
def handing : Program :=
  ⟨[.declare .unknown .fixed "f" (.function .unknown none []
      [.expression .unknown (.function .unknown none [] [.expression .unknown (.identifier .unknown "f")])]),
    .expression .unknown (.call .unknown (.call .unknown (.identifier .unknown "f") []) [])], none⟩

def around? : Value → Option (Routine × Routine)
  | .closure outer [.closure inner []] => some (outer, inner)
  | _ => none

theorem around_some {v : Value} {outer inner : Routine} (around : around? v = some (outer, inner)) :
    v = .closure outer [.closure inner []] := by
  unfold around? at around
  split at around <;> cases around
  rfl

theorem own_name_denotes_handing : ∃ (c : Compiler) (m o : Machine) (v w : Value),
    Compiler.new.compile handing = .ok () c ∧ Onward 0 (Machine.start c.bytecode #[]) m ∧ m.reads? = some v ∧
      m.opcode? = some .getFree ∧ Traces (Machine.start c.bytecode #[]) m o ∧ o.opcode? = some .currentClosure ∧
      CalledAs (Machine.start c.bytecode #[]) o w ∧ v.same w = false := by
  obtain ⟨c, compiled⟩ : handing.Compiles := by decide +kernel
  have facts : (match Compiler.new.compile handing with
      | .ok _ c =>
        let go (budget : Nat) := ((Machine.start c.bytecode #[]).run budget).2
        ((List.range 9).all fun budget => ((Machine.start c.bytecode #[]).run budget).1 = .unfinished) &&
          ((go 3).calls?.map Value.typeName = some "CompiledFunction") && (go 3).callers.size = 0 &&
          (go 4).callers.size = 1 && (go 4).opcode? = some .currentClosure && (go 4).reads?.isSome &&
          ((go 5).makes?.bind around?).isSome && (go 5).makes?.bind around? = (go 7).calls?.bind around? &&
          (go 7).callers.size = 0 && (go 8).callers.size = 1 &&
          (go 8).frame.routine.code.itemAt (go 8).frame.next = .instruction ⟨.getFree, [0]⟩ && (go 8).reads?.isSome
      | .error _ _ => false) = true := by decide +kernel
  rw [compiled] at facts
  simp only [Bool.and_eq_true, decide_eq_true_eq, List.all_eq_true, List.mem_range] at facts
  generalize start : Machine.start c.bytecode #[] = s at facts
  obtain ⟨⟨⟨⟨⟨⟨⟨⟨⟨⟨⟨each, plain⟩, outer⟩, first⟩, own⟩, named⟩, shaped⟩, alike⟩, main⟩, second⟩, item⟩, reads⟩ := facts
  have goes (budget : Nat) (early : budget < 9) : s.run budget = (.unfinished, (s.run budget).2) :=
    Prod.ext (each budget early) rfl
  have reached (budget : Nat) (early : budget < 9) : Onward 0 s (s.run budget).2 := Machine.onward_of_run (goes budget early)
  have steps (budget : Nat) (early : budget + 1 < 9) : Running.step (s.run budget).2 = .ok .next (s.run (budget + 1)).2 :=
    Machine.step_of_run (goes budget (by omega)) (goes (budget + 1) early)
  -- The function is called as it is, and reads its name for the closure that it makes.
  obtain ⟨w, calls, plain⟩ := Option.map_eq_some_iff.mp plain
  have called : CalledAs s (s.run 4).2 w :=
    ⟨_, _, reached 3 (by decide), calls, steps 3 (by decide), by rw [outer, first], .here (Nat.le_refl _)⟩
  obtain ⟨u, named⟩ := Option.isSome_iff_exists.mp named
  -- The closure is called, and reads the name again.
  obtain ⟨⟨routine, inner⟩, shape⟩ := Option.isSome_iff_exists.mp shaped
  obtain ⟨x, makes, around⟩ := Option.bind_eq_some_iff.mp shape
  obtain ⟨y, again, same⟩ := Option.bind_eq_some_iff.mp (alike.symm.trans shape)
  cases around_some around
  cases around_some same
  have nested : CalledAs s (s.run 8).2 _ :=
    ⟨_, _, reached 7 (by decide), again, steps 7 (by decide), by rw [main, second], .here (Nat.le_refl _)⟩
  obtain ⟨v, reads⟩ := Option.isSome_iff_exists.mp reads
  have traces : Traces s (s.run 8).2 (s.run 4).2 :=
    .captured item nested makes (.more (.nil (reached 4 (by decide))) named (steps 4 (by decide))) rfl rfl
      (.here (by simp [own]))
  obtain ⟨-, -, denotes⟩ := own_name_denotes compiled (by rw [start]; exact reached 8 (by decide)) reads
  rw [start] at denotes
  have free : (s.run 8).2.opcode? = some .getFree := by simp only [Machine.opcode?, item]
  refine ⟨c, _, _, v, w, compiled, by rw [start]; exact reached 8 (by decide), reads, free, by rw [start]; exact traces, own,
    by rw [start]; exact called, ?_⟩
  rcases ((denotes _ traces).2 own).2 w called with ⟨_, _, rfl, -⟩ | ⟨_, -, -, differs⟩
  · simp [Value.typeName] at plain
  · exact differs

end Session
end StackScript
