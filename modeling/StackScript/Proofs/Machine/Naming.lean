import StackScript.Proofs.Compiler.Gathering
import StackScript.Proofs.Machine.Everywhere
import StackScript.Proofs.Machine.Invoking
import StackScript.Proofs.Machine.Neutral

-- What names mean while a program runs: the value that a function was called as, and for a name that a function has
-- captured the place where it was read for that.
namespace StackScript.Machine

open Running (step goto bind_ok)

variable {start m n o : Machine} {v w : Value}

def opcode? (m : Machine) : Option OpCode :=
  match m.frame.routine.code.itemAt m.frame.next with
  | .instruction i => some i.opcode
  | _ => none

theorem opcode_some {op : OpCode} (next : m.opcode? = some op) :
    ∃ operands, m.frame.routine.code.itemAt m.frame.next = .instruction ⟨op, operands⟩ := by
  unfold opcode? at next
  split at next
  · rename_i i item
    cases next
    exact ⟨i.operands, item⟩
  · cases next

def reads? (m : Machine) : Option Value :=
  match m.frame.routine.code.itemAt m.frame.next with
  | .instruction ⟨op, operands⟩ =>
    let n := operands[0]?.getD 0
    match op with
    | .getGlobal => some (m.globals[n]?.getD .null)
    | .getLocal => m.stack[m.frame.base + n]?
    | .getBuiltin => (Builtin.ofIndex? n).map .builtin
    | .getFree => m.frame.captured[n]?
    | .currentClosure => some (.closure m.frame.routine m.frame.captured)
    | _ => none
  | _ => none

def calls? (m : Machine) : Option Value :=
  match m.frame.routine.code.itemAt m.frame.next with
  | .instruction ⟨.call, operands⟩ => m.below? (operands[0]?.getD 0)
  | _ => none

-- At this depth runs what was called as `w`, since some earlier step.
def Opened (start m : Machine) (depth : Nat) (w : Value) : Prop :=
  ∃ o n, start.Onward 0 o ∧ o.calls? = some w ∧ step o = .ok .next n ∧ o.callers.size + 1 = depth ∧ n.Onward depth m

def CalledAs (start m : Machine) (w : Value) : Prop := Opened start m m.callers.size w

-- The last steps up to here have read one name after the other.
inductive Gathered (start : Machine) : List Machine → Machine → Prop where
  | nil {m : Machine} : start.Onward 0 m → Gathered start [] m
  | more {ms : List Machine} {m n : Machine} {v : Value} : Gathered start ms m → m.reads? = some v →
      step m = .ok .next n → Gathered start (ms ++ [m]) n

-- Where a name that is read was read first. A captured name was read when its closure was made.
inductive Traces (start : Machine) : Machine → Machine → Prop where
  | here {m : Machine} : m.opcode? ≠ some .getFree → Traces start m m
  | captured {m made o origin : Machine} {operands : List Nat} {routine : Routine} {captured : List Value}
      {ms : List Machine} : m.frame.routine.code.itemAt m.frame.next = .instruction ⟨.getFree, operands⟩ →
      CalledAs start m (.closure routine captured) → made.makes? = some (.closure routine captured) →
      Gathered start ms made → ms.length = captured.length → ms[operands[0]?.getD 0]? = some o →
      Traces start o origin → Traces start m origin

theorem Onward.along {depth : Nat} {P : Machine → Prop} (onward : m.Onward depth n) (first : P m)
    (next : ∀ o q, m.Onward depth o → Running.step o = .ok .next q → depth ≤ q.callers.size → P o → P q) : P n := by
  induction onward with
  | here => exact first
  | step deep run rest ih =>
    exact ih (next _ _ (.here deep) run rest.deep first) fun o q reached => next o q (.step deep run reached)

theorem Onward.later {depth : Nat} (onward : m.Onward depth n) (run : Running.step n = .ok .next o)
    (deep : depth ≤ o.callers.size) : m.Onward depth o := by
  induction onward with
  | here before => exact .step before run (.here deep)
  | step before first _ ih => exact .step before first (ih run)

theorem Onward.stays {depth : Nat} (onward : m.Onward depth n) : depth ≤ n.callers.size := by
  induction onward with
  | here deep => exact deep
  | step _ _ _ ih => exact ih

def runs? (m : Machine) (depth : Nat) : Option (Routine × List Value) :=
  m.frames[depth]?.map fun f => (f.routine, f.captured)

theorem runs_last (m : Machine) : m.runs? m.callers.size = some (m.frame.routine, m.frame.captured) := by
  simp [runs?, frames]

theorem step_runs {depth : Nat} (run : step m = .ok .next n) (before : depth ≤ m.callers.size)
    (after : depth ≤ n.callers.size) : n.runs? depth = m.runs? depth := by
  have last {callers : Array Frame} {f g : Frame} (same : (f.routine, f.captured) = (g.routine, g.captured)) :
      (callers.push f)[depth]?.map (fun f => (f.routine, f.captured)) =
        (callers.push g)[depth]?.map fun f => (f.routine, f.captured) := by
    simp only [Array.getElem?_push]
    split
    · exact congrArg some same
    · rfl
  simp only [runs?, frames]
  cases Running.step_moves run with
  | along _ callers frame =>
    rw [callers, frame]
    exact last rfl
  | into _ _ _ callers _ =>
    rw [callers, Array.getElem?_push_lt (by rw [Array.size_push]; omega), ← Array.getElem?_eq_getElem]
    exact last rfl
  | back callers _ =>
    have below : depth < m.callers.size := by
      rw [callers, Array.size_push]
      omega
    rw [← callers, Array.getElem?_push_lt below, ← Array.getElem?_eq_getElem]

theorem Onward.runs {depth : Nat} (onward : m.Onward depth n) : n.runs? depth = m.runs? depth :=
  onward.along (P := fun q => q.runs? depth = m.runs? depth) rfl fun _ _ reached run after same =>
    (step_runs run reached.stays after).trans same

theorem step_begins (calls : m.calls? = some w) (run : step m = .ok .next n) (deeper : n.callers.size = m.callers.size + 1) :
    w.starts? = n.runs? n.callers.size := by
  rw [runs_last]
  unfold calls? at calls
  split at calls
  · rename_i operands item
    rw [step_at item] at run
    obtain ⟨u, o, called, ended⟩ := bind_ok.mp run
    cases ended
    unfold below? at calls
    split at calls
    · rename_i enough
      have called := (Running.call_run (m := goto m (m.frame.next + OpCode.call.width)) enough calls).symm.trans called
      cases w with
      | function routine | closure routine captured =>
        obtain ⟨-, -, frame⟩ := Running.invoke_moves called
        rw [frame]
        rfl
      | builtin b =>
        have keeps := (Running.native_acts b _).keeps called
        rw [keeps.callers] at deeper
        exact absurd deeper (Nat.ne_of_lt (Nat.lt_succ_self _))
      | _ => cases called
    · cases calls
  · cases calls

theorem Opened.runs {depth : Nat} (opened : Opened start m depth w) : m.runs? depth = w.starts? := by
  obtain ⟨o, n, -, calls, run, rfl, onward⟩ := opened
  have size : n.callers.size = o.callers.size + 1 := by
    have deep := onward.deep
    cases Running.step_moves run with
    | along _ callers _ =>
      rw [callers] at deep
      omega
    | into _ _ _ callers _ => rw [callers, Array.size_push]
    | back callers _ =>
      rw [callers, Array.size_push] at deep
      omega
  rw [onward.runs, step_begins calls run size, size]

theorem CalledAs.starts (called : CalledAs start m w) : w.starts? = some (m.frame.routine, m.frame.captured) :=
  (Opened.runs called).symm.trans (runs_last m)

-- Whatever runs above the main program has been called.
theorem opened_of_reached (reached : start.Onward 0 m) (main : start.callers = #[]) :
    ∀ depth, 0 < depth → depth ≤ m.callers.size → ∃ w, Opened start m depth w := by
  refine reached.along (P := fun m => ∀ depth, 0 < depth → depth ≤ m.callers.size → ∃ w, Opened start m depth w)
    (fun depth above below => ?_) fun o q reached run _ opened depth above below => ?_
  · rw [main] at below
    exact absurd above (Nat.not_lt_of_le below)
  · have further (before : depth ≤ o.callers.size) : ∃ w, Opened start q depth w := by
      obtain ⟨w, p, n, first, calls, begins, deep, onward⟩ := opened depth above before
      exact ⟨w, p, n, first, calls, begins, deep, onward.later run below⟩
    cases Running.step_moves run with
    | along _ callers _ => exact further (callers ▸ below)
    | @into i item call _ callers _ =>
      rw [callers, Array.size_push] at below
      rcases Nat.le_succ_iff.mp below with before | rfl
      · exact further before
      · obtain ⟨op, operands⟩ := i
        cases call
        have calls : ∃ w, o.calls? = some w := by
          simp only [calls?, item, below?]
          by_cases enough : operands[0]?.getD 0 < o.stack.size
          · rw [if_pos enough]
            exact ⟨_, Array.getElem?_eq_getElem (by omega)⟩
          · rw [step_at item] at run
            obtain ⟨u, p, called, -⟩ := bind_ok.mp run
            have short : (goto o (o.frame.next + OpCode.call.width)).stack.size < operands[0]?.getD 0 + 1 :=
              Nat.lt_succ_of_le (Nat.le_of_not_lt enough)
            rw [Running.call_short short] at called
            cases called
        obtain ⟨w, calls⟩ := calls
        have deep : o.callers.size + 1 ≤ q.callers.size := by simp [callers]
        exact ⟨w, o, q, reached, calls, run, rfl, .here deep⟩
    | back callers _ => exact further (by rw [callers, Array.size_push]; omega)

theorem called_of_reached (reached : start.Onward 0 m) (main : start.callers = #[]) (nested : m.callers ≠ #[]) :
    ∃ w, CalledAs start m w :=
  opened_of_reached reached main _ (Array.size_pos_iff.mpr nested) (Nat.le_refl _)

theorem step_reads {signal : Signal} (reads : m.reads? = some v) (run : step m = .ok signal n) : signal = .next ∧
    ∃ next, n = { goto m next with stack := m.stack.push v } := by
  have pushed {t : Nat} {x : Running Value} (same : x (goto m t) = .ok v (goto m t))
      (run : (do Running.push (← x); return Signal.next : Running Signal) (goto m t) = .ok signal n) : signal = .next ∧
        ∃ next, n = { goto m next with stack := m.stack.push v } := by
    obtain ⟨u, o, read, run⟩ := bind_ok.mp run
    rw [same] at read
    cases read
    obtain ⟨u, o, pushed, ended⟩ := bind_ok.mp run
    cases ended
    exact ⟨rfl, t, Running.push_ok pushed⟩
  unfold reads? at reads
  split at reads
  · rename_i op operands item
    rw [step_at item] at run
    cases op with
    | getGlobal =>
      cases reads
      exact pushed rfl run
    | getLocal => exact pushed (by simp only [Running.getLocal, goto, reads]) run
    | getFree => exact pushed (by simp only [Running.captured, goto, reads]) run
    | getBuiltin =>
      obtain ⟨b, known, rfl⟩ := Option.map_eq_some_iff.mp reads
      simp only [Running.execute_getBuiltin known] at run
      exact pushed (x := pure (.builtin b)) rfl run
    | currentClosure =>
      cases reads
      exact pushed (x := pure (.closure m.frame.routine m.frame.captured)) rfl run
    | _ => cases reads
  · cases reads

theorem reads_of_step {i : Instruction} (item : m.frame.routine.code.itemAt m.frame.next = .instruction i)
    (reads : i.opcode.reads = true) (run : step m = .ok .next n) : ∃ v, m.reads? = some v := by
  obtain ⟨op, operands⟩ := i
  rw [step_at item] at run
  simp only [reads?, item]
  cases op with
  | getGlobal => exact ⟨_, rfl⟩
  | getLocal =>
    obtain ⟨v, o, read, -⟩ := bind_ok.mp run
    unfold Running.getLocal at read
    split at read
    · rename_i found
      exact ⟨_, found⟩
    · cases read
  | getFree =>
    obtain ⟨v, o, read, -⟩ := bind_ok.mp run
    unfold Running.captured at read
    split at read
    · rename_i found
      exact ⟨_, found⟩
    · cases read
  | getBuiltin =>
    cases known : Builtin.ofIndex? (operands[0]?.getD 0) with
    | some b => exact ⟨_, rfl⟩
    | none =>
      simp only [Running.execute, known] at run
      cases run
  | currentClosure => exact ⟨_, rfl⟩
  | _ => cases reads

namespace Gathered

variable {ms : List Machine}

theorem reached (gathered : Gathered start ms m) : start.Onward 0 m := by
  induction gathered with
  | nil reached => exact reached
  | more _ _ run ih => exact ih.later run (Nat.zero_le _)

theorem each_reached (gathered : Gathered start ms m) : ∀ o ∈ ms, start.Onward 0 o := by
  induction gathered with
  | nil => simp
  | more before _ _ ih =>
    intro o present
    rcases List.mem_append.mp present with old | new
    · exact ih o old
    · rw [List.mem_singleton.mp new]
      exact before.reached

theorem values (gathered : Gathered start ms m) :
    ∃ vs below, ms.map reads? = vs.map some ∧ m.stack.toList = below ++ vs := by
  induction gathered with
  | nil => exact ⟨[], _, rfl, (List.append_nil _).symm⟩
  | @more ms m n v before reads run ih =>
    obtain ⟨vs, below, same, stack⟩ := ih
    obtain ⟨-, next, rfl⟩ := step_reads reads run
    refine ⟨vs ++ [v], below, ?_, ?_⟩
    · rw [List.map_append, List.map_append, same, List.map_singleton, reads, List.map_singleton]
    · rw [Array.toList_push, stack, List.append_assoc]

theorem top (gathered : Gathered start ms m) : ∃ vs, ms.map reads? = vs.map some ∧ m.top? ms.length = some vs := by
  obtain ⟨vs, below, same, stack⟩ := gathered.values
  have count : ms.length = vs.length := by simpa using congrArg List.length same
  have size : m.stack.size = below.length + vs.length := by
    rw [← Array.length_toList, stack, List.length_append]
  refine ⟨vs, same, ?_⟩
  rw [top?, if_pos (by omega), count, Array.toList_extract, stack, size]
  simp [List.extract_eq_take_drop]

theorem drop (gathered : Gathered start ms m) (k : Nat) : Gathered start (ms.drop k) m := by
  induction gathered with
  | nil reached =>
    rw [List.drop_nil]
    exact .nil reached
  | @more ms m n v before reads run ih =>
    by_cases all : k ≤ ms.length
    · rw [List.drop_append_of_le_length all]
      exact .more ih reads run
    · rw [List.drop_eq_nil_of_le (by rw [List.length_append, List.length_singleton]; omega)]
      exact .nil (before.more reads run).reached

end Gathered

-- What was gathered is what a closure captures.
theorem makes_gathered {routine : Routine} {captured : List Value} {ms : List Machine}
    (makes : m.makes? = some (.closure routine captured)) (gathered : Gathered start ms m)
    (count : ms.length = captured.length) : ms.map reads? = captured.map some := by
  obtain ⟨vs, same, top⟩ := gathered.top
  obtain ⟨operands, _, _, -, -, taken, equal⟩ := makes_some makes
  cases equal
  rw [count, (top_some taken).1, taken] at top
  cases top
  exact same

theorem Traces.value (traces : Traces start m o) (reads : m.reads? = some v) : o.reads? = some v := by
  induction traces with
  | here => exact reads
  | @captured m made o origin operands routine captured ms item called makes gathered count present _ ih =>
    refine ih ?_
    have frame := called.starts
    simp only [reads?, item] at reads
    cases frame
    have same := congrArg (fun vs => vs[operands[0]?.getD 0]?) (makes_gathered makes gathered count)
    simp only [List.getElem?_map, present, reads, Option.map_some] at same
    exact Option.some.inj same

theorem Traces.reached (traces : Traces start m o) (reached : start.Onward 0 m) : start.Onward 0 o := by
  induction traces with
  | here => exact reached
  | captured _ _ _ gathered _ present _ ih => exact ih (gathered.each_reached _ (List.mem_of_getElem? present))

-- The own name of a function denotes a closure over what the running function has captured.
theorem own_reads (own : m.opcode? = some .currentClosure) (reads : m.reads? = some v) :
    v = .closure m.frame.routine m.frame.captured := by
  obtain ⟨operands, item⟩ := opcode_some own
  simp only [reads?, item] at reads
  exact (Option.some.inj reads).symm

-- Beside it stands the value that was called: a closure is that very value, a plain function is not.
theorem CalledAs.denotes (called : CalledAs start m w) (denotes : v = .closure m.frame.routine m.frame.captured) :
    (∃ routine captured, w = .closure routine captured ∧ v = w ∧ v.same w = w.same w) ∨
      ∃ routine, w = .function routine ∧ v = .closure routine [] ∧ v.same w = false := by
  have starts := called.starts
  cases w with
  | closure routine captured =>
    cases starts
    exact .inl ⟨_, _, rfl, denotes, by rw [denotes]⟩
  | function routine =>
    simp only [Value.starts?, Option.some.injEq, Prod.mk.injEq] at starts
    obtain ⟨same, empty⟩ := starts
    rw [← same, ← empty] at denotes
    exact .inr ⟨routine, rfl, denotes, by rw [denotes]; rfl⟩
  | _ => cases starts

end StackScript.Machine
