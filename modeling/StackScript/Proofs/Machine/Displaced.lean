import StackScript.Proofs.Code.Assembly
import StackScript.Proofs.Compiler.WellFormed
import StackScript.Proofs.Machine.Moves

-- Code that was moved into other code runs there as it runs by itself.
namespace StackScript

-- The code of a main program, which stands in another `offset` bytes further on. A run of the other has the constants
-- `pool`, and it has printed some lines before it comes there.
structure Displacement where
  inner : Code
  outer : Code
  offset : Nat
  pool : Array Value
  printed : Array String
  same : Prop -- whether both runs have the same constants

namespace Displacement

open Machine (Shows Alike)
open Running

structure Sound (k : Displacement) : Prop where
  items : ∀ a i, k.inner.Has a i → k.outer.itemAt (k.offset + a) = .instruction (i.raise k.offset)
  jumps : ∀ a i, k.inner.Has a i → (i.opcode = .jump ∨ i.opcode = .jumpUnless) →
    ∃ target, i.operands = [target] ∧ k.inner.Walk 0 target
  plain : ∀ a i, k.inner.Has a i → i.opcode ≠ .currentClosure

-- Instructions in a row and, in the other code, the same with their jumps raised.
theorem Sound.of_assembled {k : Displacement} {is : List Instruction} {bytes : List UInt8} {place : Place}
    (alone : Instruction.assemble is = .ok k.inner.toList)
    (moved : Instruction.assemble (is.map (Instruction.raise k.offset)) = .ok bytes) (held : k.outer.Holds k.offset bytes)
    (formed : k.inner.WellFormed place) (main : place.function = none) : k.Sound := by
  have here : k.inner.toList = [] ++ (k.inner.toList ++ []) := by simp
  have among {a : Nat} {i : Instruction} (has : k.inner.Has a i) :
      ∃ front back, is = front ++ i :: back ∧ a = OpCode.widths (front.map Instruction.opcode) := by
    have inside := Code.itemAt_inside has.2
    obtain ⟨front, rest, shape, place⟩ := Code.assembled_at alone (Code.holds_between here) has.1 (by simp; omega)
    rw [List.length_nil, Nat.zero_add] at place
    cases rest with
    | nil =>
      have length := Instruction.assemble_length alone
      rw [shape, List.append_nil, ← place, Array.length_toList] at length
      omega
    | cons j back =>
      rw [shape] at alone
      have item := Code.itemAt_assembled alone (Code.holds_between here)
      rw [List.length_nil, Nat.zero_add, ← place, has.2] at item
      cases item
      exact ⟨front, back, shape, place⟩
  have count {a : Nat} {i : Instruction} (has : k.inner.Has a i) : i.operands.length = i.opcode.operandWidths.length := by
    obtain ⟨front, back, shape, -⟩ := among has
    rw [shape] at alone
    exact Instruction.assembled_count alone
  refine ⟨fun a i has => ?_, fun a i has jumps => ?_, fun a i has itself => ?_⟩
  · obtain ⟨front, back, shape, rfl⟩ := among has
    rw [shape, List.map_append, List.map_cons] at moved
    have item := Code.itemAt_assembled moved held
    rwa [List.map_map, show Instruction.opcode ∘ Instruction.raise k.offset = Instruction.opcode from
      funext fun j => j.raise_opcode _] at item
  · have one := count has
    obtain ⟨op, operands⟩ := i
    have only : operands.length = 1 := by rcases jumps with rfl | rfl <;> exact one
    obtain ⟨target, rfl⟩ := List.length_eq_one_iff.mp only
    have jump : Instruction.IsJump ⟨op, [target]⟩ target := by rcases jumps with rfl | rfl <;> simp [Instruction.IsJump]
    exact ⟨target, rfl, (formed.jumps a _ target has jump).2.2⟩
  · have empty := count has
    have range := formed.operands a i has
    obtain ⟨op, operands⟩ := i
    cases itself
    cases List.length_eq_zero_iff.mp empty
    simp [Instruction.InRange, main] at range

structure Frames (k : Displacement) (f g : Frame) : Prop where
  alone : f.routine.code = k.inner
  whole : g.routine.code = k.outer
  outermost : f.base = 0 ∧ f.captured = []
  base : g.base = f.base
  captured : g.captured = f.captured
  next : g.next = k.offset + f.next
  reached : k.inner.Walk 0 f.next

-- Above the main program the same functions run.
inductive Stands (k : Displacement) (m w : Machine) : Prop where
  | main : m.callers = #[] → w.callers = #[] → k.Frames m.frame w.frame → Stands k m w
  | called {f g : Frame} {rest : Array Frame} : m.callers = #[f] ++ rest → w.callers = #[g] ++ rest → k.Frames f g →
      w.frame = m.frame → Stands k m w

structure Beside (k : Displacement) (m w : Machine) : Prop extends Shows k.printed m w where
  pool : w.constants = k.pool
  constants : m.constants.toList <+: w.constants.toList
  all : k.same → m.constants = w.constants
  stack : w.stack = m.stack
  stands : k.Stands m w

variable {k : Displacement} {m n w z : Machine} {α β : Type}

def Outcome (k : Displacement) : Signal → Machine → Machine → Prop
  | .next => k.Beside
  | .halt => Shows k.printed

-- The second machine does what the first one does; and it fails with it if it has no constants more.
def Twins (k : Displacement) (after : α → Machine → Machine → Prop) (r s : EStateM.Result Stop Machine α) : Prop :=
  match r with
  | .ok v n => ∃ z, s = .ok v z ∧ after v n z
  | .error stop n => k.same → ∃ z, s = .error stop z ∧ n.Shows k.printed z

theorem Beside.alike (beside : k.Beside m w) : Alike k.printed m w := by
  refine ⟨beside.toShows, beside.constants, beside.stack, ?_, ?_⟩
  · cases beside.stands with
    | main _ _ frames => exact frames.base
    | called _ _ _ same => rw [same]
  · cases beside.stands with
    | main _ _ frames => exact frames.captured
    | called _ _ _ same => rw [same]

theorem Beside.callers (beside : k.Beside m w) : w.callers.size = m.callers.size := by
  cases beside.stands with
  | main alone whole _ => rw [alone, whole]
  | called alone whole _ _ =>
    rw [alone, whole]
    simp

theorem Stands.keeps (stands : k.Stands m w) (one : m.Keeps n) (two : w.Keeps z) : k.Stands n z := by
  cases stands with
  | main alone whole frames =>
    rw [← one.frame, ← two.frame] at frames
    exact .main (one.callers.trans alone) (two.callers.trans whole) frames
  | called alone whole frames same =>
    exact .called (one.callers.trans alone) (two.callers.trans whole) frames (by rw [one.frame, two.frame, same])

theorem Twins.mono {r s : EStateM.Result Stop Machine α} {after later : α → Machine → Machine → Prop}
    (twins : k.Twins after r s) (each : ∀ v n z, after v n z → later v n z) : k.Twins later r s := by
  unfold Twins at twins ⊢
  cases r with
  | ok v n =>
    obtain ⟨z, equal, held⟩ := twins
    exact ⟨z, equal, each v n z held⟩
  | error f n => exact twins

theorem twins_bind {x y : Running α} {f g : α → Running β} {after : α → Machine → Machine → Prop}
    {later : β → Machine → Machine → Prop} (first : k.Twins after (x m) (y w))
    (rest : ∀ v n z, after v n z → k.Twins later (f v n) (g v z)) : k.Twins later ((x >>= f) m) ((y >>= g) w) := by
  simp only [bind, EStateM.bind]
  unfold Twins at first
  cases one : x m with
  | ok v n =>
    rw [one] at first
    obtain ⟨z, two, held⟩ := first
    simp only [two]
    exact rest v n z held
  | error e n =>
    rw [one] at first
    intro same
    obtain ⟨z, two, shows⟩ := first same
    simp only [two]
    exact ⟨z, rfl, shows⟩

theorem acts_twins {x : Running α} {a b : Nat} (acts : Acts a b x) (beside : k.Beside m w) :
    k.Twins (fun _ n z => k.Beside n z ∧ m.Keeps n ∧ w.Keeps z) (x m) (x w) := by
  have one := acts _ _ _ beside.alike
  unfold Twins
  cases run : x m with
  | ok v n =>
    rw [run] at one
    obtain ⟨keeps, -, z, run', keeps', alike⟩ := one
    have all (same : k.same) : n.constants = z.constants :=
      keeps.constants.trans ((beside.all same).trans keeps'.constants.symm)
    exact ⟨z, run', ⟨alike.toShows, keeps'.constants.trans beside.pool, alike.constants, all, alike.stack,
      beside.stands.keeps keeps keeps'⟩, keeps, keeps'⟩
  | error f n =>
    rw [run] at one
    exact fun same => one (beside.all same)

theorem Beside.outcome (beside : k.Beside m w) (signal : Signal) : k.Outcome signal m w := by
  cases signal with
  | next => exact beside
  | halt => exact beside.toShows

theorem signal_twins {x : Running Signal} {a b : Nat} (acts : Acts a b x) (beside : k.Beside m w) :
    k.Twins k.Outcome (x m) (x w) :=
  (acts_twins acts beside).mono fun signal _ _ ⟨after, _⟩ => after.outcome signal

theorem unit_twins {x : Running Unit} {a b : Nat} (acts : Acts a b x) (beside : k.Beside m w) :
    k.Twins (fun _ => k.Beside) (x m) (x w) :=
  (acts_twins acts beside).mono fun _ _ _ ⟨after, _⟩ => after

theorem error_twins {after : α → Machine → Machine → Prop} (stop : Stop) (beside : k.Beside m w) :
    k.Twins after (.error stop m) (.error stop w) := fun _ => ⟨w, rfl, beside.toShows⟩

theorem invoke_twins (routine : Routine) (captured : List Value) (given : Nat) (beside : k.Beside m w) :
    k.Twins (fun _ => k.Beside) (invoke routine captured given m) (invoke routine captured given w) := by
  unfold invoke
  rw [beside.stack, beside.callers]
  split
  · exact error_twins _ beside
  · split
    · exact error_twins _ beside
    · simp only
      split
      · exact error_twins _ beside
      split
      · exact error_twins _ beside
      · refine ⟨_, rfl, ⟨beside.globals, beside.output⟩, beside.pool, beside.constants, beside.all, rfl, ?_⟩
        cases beside.stands with
        | main alone whole frames =>
          have below : m.callers.push m.frame = #[m.frame] ++ #[] := by rw [alone]; rfl
          exact .called below (by rw [whole]; rfl) frames rfl
        | @called f g rest alone whole frames same =>
          have below : m.callers.push m.frame = #[f] ++ rest.push m.frame := by simp [alone]
          exact .called below (by simp [whole, same]) frames rfl

theorem leave_twins (v : Value) (beside : k.Beside m w) : k.Twins k.Outcome (leave v m) (leave v w) := by
  have pushed {n z : Machine} (beside : k.Beside n z) : k.Twins k.Outcome
      ((do push v; return Signal.next : Running Signal) n) ((do push v; return Signal.next : Running Signal) z) :=
    signal_twins (acts_bind (push_acts v) fun _ => acts_pure Signal.next) beside
  have stack : w.stack.shrink (w.frame.base - 1) = m.stack.shrink (m.frame.base - 1) := by
    rw [beside.stack, beside.alike.base]
  cases beside.stands with
  | main alone whole _ =>
    simp only [leave, alone, whole, Array.back?_empty]
    exact ⟨_, rfl, beside.globals, beside.output⟩
  | @called f g rest alone whole frames same =>
    by_cases outermost : rest.size = 0
    · cases Array.eq_empty_of_size_eq_zero outermost
      have below : m.callers = Array.push #[] f := alone
      have below' : w.callers = Array.push #[] g := whole
      rw [leave_run v below, leave_run v below', stack]
      exact pushed ⟨⟨beside.globals, beside.output⟩, beside.pool, beside.constants, beside.all, rfl, .main rfl rfl frames⟩
    · obtain ⟨others, caller, rfl⟩ := Array.eq_push_of_size_ne_zero outermost
      have below : m.callers = (#[f] ++ others).push caller := by simp [alone]
      have below' : w.callers = (#[g] ++ others).push caller := by simp [whole]
      rw [leave_run v below, leave_run v below', stack]
      exact pushed ⟨⟨beside.globals, beside.output⟩, beside.pool, beside.constants, beside.all, rfl,
        .called rfl rfl frames rfl⟩

theorem call_twins (given : Nat) (beside : k.Beside m w) : k.Twins (fun _ => k.Beside) (call given m) (call given w) := by
  by_cases enough : given + 1 ≤ m.stack.size
  · have here : m.stack[m.stack.size - (given + 1)]? = some m.stack[m.stack.size - (given + 1)] :=
      Array.getElem?_eq_getElem (by omega)
    generalize m.stack[m.stack.size - (given + 1)] = v at here
    rw [call_run enough here, call_run (by rw [beside.stack]; exact enough) (by rw [beside.stack]; exact here)]
    cases v with
    | closure routine captured => exact invoke_twins _ _ _ beside
    | function routine => exact invoke_twins _ _ _ beside
    | builtin b => exact unit_twins (native_acts b given) beside
    | _ => exact error_twins _ beside
  · have few : m.stack.size < given + 1 := by omega
    rw [call_short few, call_short (by rw [beside.stack]; exact few)]
    exact error_twins _ beside

theorem Beside.goto {s t : Nat} (beside : k.Beside m w) (inside : m.callers = #[] → t = k.offset + s ∧ k.inner.Walk 0 s)
    (above : m.callers ≠ #[] → t = s) : k.Beside (goto m s) (goto w t) := by
  refine ⟨⟨beside.globals, beside.output⟩, beside.pool, beside.constants, beside.all, beside.stack, ?_⟩
  cases beside.stands with
  | main alone whole frames =>
    obtain ⟨same, reached⟩ := inside alone
    exact .main alone whole ⟨frames.alone, frames.whole, frames.outermost, frames.base, frames.captured, same, reached⟩
  | called alone whole frames same =>
    refine .called alone whole frames ?_
    rw [above (by simp [alone])]
    simp only [Running.goto, same]

structure Instructions (k : Displacement) (m w : Machine) (i j : Instruction) : Prop where
  alone : m.frame.routine.code.itemAt m.frame.next = .instruction i
  whole : w.frame.routine.code.itemAt w.frame.next = .instruction j
  opcode : j.opcode = i.opcode
  straight : i.opcode ≠ .jump → i.opcode ≠ .jumpUnless → j = i
  behind : k.Beside (Running.goto m (m.frame.next + i.opcode.width)) (Running.goto w (w.frame.next + i.opcode.width))
  target : i.opcode = .jump ∨ i.opcode = .jumpUnless → ∀ {n z : Machine}, k.Beside n z → n.callers = m.callers →
    k.Beside (goto n (i.operands[0]?.getD 0)) (goto z (j.operands[0]?.getD 0))
  own : i.opcode = .currentClosure → w.frame = m.frame

theorem instruction_twins {i j : Instruction} (here : k.Instructions m w i j) : k.Twins k.Outcome (step m) (step w) := by
  have behind := here.behind
  rw [Machine.step_at here.alone, Machine.step_at here.whole, here.opcode]
  cases op : i.opcode with
  | jump =>
    rw [op] at behind
    exact ⟨_, rfl, here.target (.inl op) behind rfl⟩
  | jumpUnless =>
    rw [op] at behind
    refine twins_bind (acts_twins pop_acts behind) fun condition n z ⟨popped, keeps, _⟩ => ?_
    by_cases truthy : condition.truthy
    · simp only [truthy, Bool.not_true, Bool.false_eq_true, if_false]
      exact ⟨z, rfl, popped⟩
    · simp only [truthy, Bool.not_false, if_true]
      exact ⟨_, rfl, here.target (.inr op) popped keeps.callers⟩
  | call =>
    rw [op] at behind
    rw [here.straight (by simp [op]) (by simp [op])]
    refine twins_bind (call_twins _ behind) fun _ n z called => ?_
    exact ⟨z, rfl, called⟩
  | returnValue =>
    rw [op] at behind
    exact twins_bind (acts_twins pop_acts behind) fun v n z ⟨popped, _⟩ => leave_twins v popped
  | returnNull =>
    rw [op] at behind
    exact leave_twins .null behind
  | currentClosure =>
    rw [op] at behind
    have routine : w.frame.routine = m.frame.routine := by rw [here.own op]
    have captured : w.frame.captured = m.frame.captured := by rw [here.own op]
    have pushed := signal_twins (acts_bind (push_acts (.closure m.frame.routine m.frame.captured)) fun _ =>
      acts_pure Signal.next) behind
    show k.Twins k.Outcome _ ((do push (.closure w.frame.routine w.frame.captured); return Signal.next : Running Signal) _)
    rw [routine, captured]
    exact pushed
  | _ =>
    obtain ⟨a, b, known⟩ := execute_usage i.opcode (i.operands[0]?.getD 0) (i.operands[1]?.getD 0) (by simp [op])
      (by simp [op]) (by simp [op]) (by simp [op]) (by simp [op]) (by simp [op])
    rw [here.straight (by simp [op]) (by simp [op]), ← op]
    exact signal_twins (execute_acts known) behind

theorem Stands.empty (stands : k.Stands m w) : w.callers = #[] ↔ m.callers = #[] := by
  cases stands with
  | main alone whole _ => simp [alone, whole]
  | called alone whole _ _ => simp [alone, whole]

-- Between two instructions of the main program, or anywhere above it, the second machine takes the step of the first.
theorem step_twins (sound : k.Sound) (beside : k.Beside m w)
    (inside : m.callers = #[] → ∃ i, m.frame.routine.code.itemAt m.frame.next = .instruction i) :
    k.Twins k.Outcome (step m) (step w) := by
  cases beside.stands with
  | main alone whole frames =>
    obtain ⟨i, item⟩ := inside alone
    have has : k.inner.Has m.frame.next i := by
      rw [frames.alone] at item
      exact ⟨frames.reached, item⟩
    have behind : k.Beside (goto m (m.frame.next + i.opcode.width)) (goto w (w.frame.next + i.opcode.width)) := by
      refine beside.goto (fun _ => ⟨by rw [frames.next, Nat.add_assoc], ?_⟩) (fun called => absurd alone called)
      exact frames.reached.append (.one has.2 trivial)
    refine instruction_twins (j := i.raise k.offset) ⟨item, ?_, i.raise_opcode _, ?_, behind, ?_, ?_⟩
    · rw [frames.whole, frames.next]
      exact sound.items _ _ has
    · intro jump unless_
      exact Instruction.raise_straight jump unless_ _
    · intro jumps n z after callers
      obtain ⟨target, operands, reached⟩ := sound.jumps _ _ has jumps
      have raised : (i.raise k.offset).operands = [target + k.offset] := by
        rcases jumps with op | op <;> simp [Instruction.raise, op, operands]
      rw [operands, raised]
      exact after.goto (fun _ => ⟨Nat.add_comm _ _, reached⟩) (fun called => absurd (callers.trans alone) called)
    · exact fun op => absurd op (sound.plain _ _ has)
  | @called f g rest alone whole frames same =>
    have above : m.callers ≠ #[] := by simp [alone]
    have above' : w.callers ≠ #[] := by simp [whole]
    have alike : w.frame.routine.code.itemAt w.frame.next = m.frame.routine.code.itemAt m.frame.next := by rw [same]
    cases item : m.frame.routine.code.itemAt m.frame.next with
    | nothing =>
      rw [step_back item above, step_back (alike.trans item) above']
      exact leave_twins .null beside
    | unknown byte =>
      rw [step_unknown item, step_unknown (alike.trans item), same]
      exact error_twins _ beside
    | truncated op =>
      rw [step_truncated item, step_truncated (alike.trans item), same]
      exact error_twins _ beside
    | instruction i =>
      refine instruction_twins (j := i) ⟨item, alike.trans item, rfl, fun _ _ => rfl, ?_, ?_, fun _ => same⟩
      · exact beside.goto (fun main => absurd main above) fun _ => by rw [same]
      · intro _ n z after callers
        exact after.goto (fun main => absurd (callers.symm.trans main) above) fun _ => rfl

end Displacement
end StackScript
