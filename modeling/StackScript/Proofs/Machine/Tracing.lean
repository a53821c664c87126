import StackScript.Proofs.Machine.Naming

-- Every name that is read in a run can be traced to where it was read first. What a closure has captured was gathered by
-- the function that made it, and this one was called as some value too.
namespace StackScript

namespace Machine

-- A closure that was made in the run, of names that were read one after the other.
def Made (start : Machine) (routine : Routine) (captured : List Value) : Prop :=
  ∃ m ms, m.makes? = some (.closure routine captured) ∧ Gathered start ms m ∧ ms.length = captured.length ∧
    ∀ o ∈ ms, ∃ origin, Traces start o origin

end Machine

-- A value of which every function gathers what its closures capture, and every closure was made so.
inductive Value.Traced (start : Machine) : Value → Prop where
  | of {v : Value} :
      (∀ routine captured, v.starts? = some (routine, captured) →
        routine.code.Fed 0 0 ∧ (captured = [] ∨ start.Made routine captured)) →
      (∀ part ∈ v.parts, Traced start part) → Traced start v

namespace Value.Traced

variable {start : Machine} {v : Value} {routine : Routine} {captured : List Value}

theorem starts (traced : v.Traced start) (starts : v.starts? = some (routine, captured)) :
    routine.code.Fed 0 0 ∧ (captured = [] ∨ start.Made routine captured) := by
  cases traced with
  | of functions _ => exact functions routine captured starts

theorem hereditary (start : Machine) : Hereditary (Traced start) := by
  refine ⟨fun noFunction parts => .of (fun routine captured starts => ?_) parts, fun traced => ?_⟩
  · rename_i v
    cases v <;> simp [callee?, starts?] at noFunction starts
  · cases traced with
    | of _ parts => exact parts

theorem function (fed : routine.code.Fed 0 0) : (Value.function routine).Traced start := by
  refine .of (fun routine captured starts => ?_) fun part present => by cases present
  cases starts
  exact ⟨fed, .inl rfl⟩

theorem closure (fed : routine.code.Fed 0 0) (made : captured = [] ∨ start.Made routine captured)
    (each : ∀ v ∈ captured, v.Traced start) : (Value.closure routine captured).Traced start := by
  refine .of (fun routine captured starts => ?_) each
  cases starts
  exact ⟨fed, made⟩

theorem flows (start : Machine) : Flows (Traced start) :=
  ⟨hereditary start, fun traced => closure (traced.starts rfl).1 (.inl rfl) (by simp)⟩

end Value.Traced

namespace Machine

open Running (step)

variable {start m n : Machine} {v : Value}

-- The names that are being gathered are traced, and whatever is still to be made of them will be.
structure Traceable (start m : Machine) : Prop where
  all : m.All (Value.Traced start)
  gathered : ∃ ms, Gathered start ms m ∧ (∀ o ∈ ms, ∃ origin, Traces start o origin) ∧
    m.frame.routine.code.Fed m.frame.next ms.length
  callers : ∀ f ∈ m.callers, f.routine.code.Fed f.next 0

theorem Traceable.reached (traceable : Traceable start m) : start.Onward 0 m := by
  obtain ⟨ms, gathered, -⟩ := traceable.gathered
  exact gathered.reached

theorem captured_main (reached : start.Onward 0 m) (begins : start.callers = #[]) (bare : start.frame.captured = [])
    (main : m.callers = #[]) : m.frame.captured = [] := by
  have same := reached.runs
  have first := runs_last start
  have last := runs_last m
  rw [begins] at first
  rw [main] at last
  rw [← bare]
  exact congrArg Prod.snd (Option.some.inj (last.symm.trans (same.trans first)))

theorem Traceable.traces (traceable : Traceable start m) (begins : start.callers = #[]) (bare : start.frame.captured = [])
    (reads : m.reads? = some v) : ∃ o, Traces start m o := by
  by_cases free : m.opcode? = some .getFree
  · obtain ⟨operands, item⟩ := opcode_some free
    simp only [reads?, item] at reads
    obtain ⟨below, -⟩ := List.getElem?_eq_some_iff.mp reads
    have filled : m.frame.captured ≠ [] := List.ne_nil_of_length_pos (Nat.zero_lt_of_lt below)
    have nested : m.callers ≠ #[] := fun main => filled (captured_main traceable.reached begins bare main)
    obtain ⟨w, called⟩ := called_of_reached traceable.reached begins nested
    have starts := called.starts
    obtain ⟨made, ms, makes, gathered, count, each⟩ := (traceable.all.frame.starts rfl).2.resolve_left filled
    rw [← count] at below
    obtain ⟨origin, traces⟩ := each _ (List.getElem_mem below)
    -- A plain function has captured nothing.
    cases w with
    | function routine =>
      simp only [Value.starts?, Option.some.injEq, Prod.mk.injEq] at starts
      exact absurd starts.2.symm filled
    | closure routine captured =>
      cases starts
      exact ⟨origin, .captured item called makes gathered count (List.getElem?_eq_getElem below) traces⟩
    | _ => cases starts
  · exact ⟨m, .here free⟩

-- What is made is made of the last names that were gathered.
theorem Traceable.makes (traceable : Traceable start m) (makes : m.makes? = some v) : v.Traced start := by
  obtain ⟨operands, routine, captured, item, present, top, rfl⟩ := makes_some makes
  obtain ⟨count, members⟩ := top_some top
  obtain ⟨ms, gathered, each, fed⟩ := traceable.gathered
  have enough : captured.length ≤ ms.length := by
    rw [count]
    exact fed.enough item rfl
  have function := traceable.all.constants _ (Array.mem_of_getElem? present)
  have made : start.Made routine captured := by
    refine ⟨m, ms.drop (ms.length - captured.length), makes, gathered.drop _, ?_, fun o last => ?_⟩
    · rw [List.length_drop]
      omega
    · exact each o (List.mem_of_mem_drop last)
  exact .closure (function.starts rfl).1 (.inr made) fun v inside => traceable.all.stack v (members v inside)

theorem Traceable.step (traceable : Traceable start m) (begins : start.callers = #[]) (bare : start.frame.captured = [])
    (run : step m = .ok .next n) : Traceable start n := by
  obtain ⟨ms, gathered, each, fed⟩ := traceable.gathered
  have reached := gathered.reached.later run (Nat.zero_le _)
  have all := traceable.all.step (Value.Traced.flows start) (fun v => traceable.makes) run
  have fresh (fed : n.frame.routine.code.Fed n.frame.next 0) : ∃ ms, Gathered start ms n ∧
      (∀ o ∈ ms, ∃ origin, Traces start o origin) ∧ n.frame.routine.code.Fed n.frame.next ms.length :=
    ⟨[], .nil reached, by simp, fed⟩
  cases Running.step_moves run with
  | @along next follows callers frame =>
    obtain ⟨i, item, goes⟩ := follows
    have onward := fed.onward item goes
    refine ⟨all, ?_, by rw [callers]; exact traceable.callers⟩
    by_cases reads : i.opcode.reads
    · obtain ⟨v, reads'⟩ := reads_of_step item reads run
      obtain ⟨origin, traces⟩ := traceable.traces begins bare reads'
      refine ⟨ms ++ [m], .more gathered reads' run, fun o present => ?_, ?_⟩
      · rcases List.mem_append.mp present with old | new
        · exact each o old
        · rw [List.mem_singleton.mp new]
          exact ⟨origin, traces⟩
      · rw [if_pos reads] at onward
        rw [frame, List.length_append]
        exact onward
    · rw [if_neg reads] at onward
      exact fresh (by rw [frame]; exact onward)
  | @into i item call _ callers first =>
    have onward := fed.onward (b := m.frame.next + i.opcode.width) item (by simp only [Instruction.GoesOn, call])
    refine ⟨all, fresh (by rw [first]; exact (all.frame.starts rfl).1), fun f present => ?_⟩
    rw [callers] at present
    rcases Array.mem_push.mp present with old | rfl
    · exact traceable.callers f old
    · simpa only [call, OpCode.reads, Bool.false_eq_true, if_false] using onward
  | back callers _ =>
    have waiting := traceable.callers
    rw [callers] at waiting
    exact ⟨all, fresh (waiting _ (by simp)), fun f present => waiting f (Array.mem_push.mpr (.inl present))⟩

theorem Traceable.onward (traceable : Traceable start start) (begins : start.callers = #[])
    (bare : start.frame.captured = []) (reached : start.Onward 0 m) : Traceable start m :=
  reached.along traceable fun _ _ _ run _ before => before.step begins bare run

end Machine
end StackScript
