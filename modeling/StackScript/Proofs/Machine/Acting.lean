import StackScript.Machine.Step

-- Instructions that neither jump nor call nor go back. They keep the frames, they leave the stack no higher than their
-- opcode says, and they do the same on machines that differ only in what is running.
namespace StackScript

namespace Machine

-- What machines show when they stop. The second printed some lines before the first began.
structure Shows (printed : Array String) (m w : Machine) : Prop where
  globals : w.globals = m.globals
  output : w.output = printed ++ m.output

-- Machines that instructions cannot tell apart. The second has all constants of the first and perhaps more.
structure Alike (printed : Array String) (m w : Machine) : Prop extends Shows printed m w where
  constants : m.constants.toList <+: w.constants.toList
  stack : w.stack = m.stack
  base : w.frame.base = m.frame.base
  captured : w.frame.captured = m.frame.captured

-- A machine that is still running where another was.
structure Keeps (m n : Machine) : Prop where
  constants : n.constants = m.constants
  frame : n.frame = m.frame
  callers : n.callers = m.callers

theorem Keeps.refl (m : Machine) : m.Keeps m := ⟨rfl, rfl, rfl⟩

theorem Keeps.trans {m n o : Machine} (left : m.Keeps n) (right : n.Keeps o) : m.Keeps o :=
  ⟨right.constants.trans left.constants, right.frame.trans left.frame, right.callers.trans left.callers⟩

theorem Alike.refl (m : Machine) : m.Alike #[] m :=
  ⟨⟨rfl, by simp⟩, List.prefix_rfl, rfl, rfl, rfl⟩

theorem Alike.restack {printed : Array String} {m w : Machine} (alike : m.Alike printed w) (stack : Array Value) :
    Alike printed { m with stack } { w with stack } :=
  ⟨⟨alike.globals, alike.output⟩, alike.constants, rfl, alike.base, alike.captured⟩

end Machine

namespace Running

variable {α β : Type} {a b c d : Nat}

-- A computation of which `takes` values may be on the stack before and `gives` after, beside those that it does not
-- touch. With fewer it fails, or it leaves fewer.
def Acts (takes gives : Nat) (x : Running α) : Prop := ∀ printed m w, Machine.Alike printed m w →
  match x m with
  | .ok v n => m.Keeps n ∧ (∀ h, m.stack.size ≤ h + takes → n.stack.size ≤ h + gives) ∧
    ∃ z, x w = .ok v z ∧ w.Keeps z ∧ n.Alike printed z
  | .error f n => m.constants = w.constants → ∃ z, x w = .error f z ∧ n.Shows printed z

theorem acts_bind {x : Running α} {f : α → Running β} (first : Acts a b x) (rest : ∀ v, Acts b c (f v)) :
    Acts a c (x >>= f) := by
  intro printed m w alike
  have one := first printed m w alike
  simp only [bind, EStateM.bind]
  cases run : x m with
  | error e n =>
    rw [run] at one
    intro same
    obtain ⟨z, run', shows⟩ := one same
    exact ⟨z, by rw [run'], shows⟩
  | ok v n =>
    rw [run] at one
    obtain ⟨keeps, low, z, run', keeps', alike'⟩ := one
    have two := rest v printed n z alike'
    simp only [run']
    cases next : f v n with
    | error e o =>
      rw [next] at two
      intro same
      exact two (keeps.constants.trans (same.trans keeps'.constants.symm))
    | ok u o =>
      rw [next] at two
      obtain ⟨further, lower, y, run'', further', alike''⟩ := two
      exact ⟨keeps.trans further, fun h enough => lower h (low h enough), y, run'', keeps'.trans further', alike''⟩

theorem acts_above {x : Running α} (acts : Acts a b x) (k : Nat) : Acts (k + a) (k + b) x := by
  intro printed m w alike
  have one := acts printed m w alike
  cases run : x m with
  | error e n =>
    rw [run] at one
    exact one
  | ok v n =>
    rw [run] at one
    obtain ⟨keeps, low, others⟩ := one
    refine ⟨keeps, fun h enough => ?_, others⟩
    have := low (h + k) (by omega)
    omega

theorem acts_pure (v : α) : Acts a a (pure v : Running α) := fun _ m w alike =>
  ⟨.refl m, fun _ enough => enough, w, rfl, .refl w, alike⟩

theorem acts_fail (f : Fault) : Acts a b (fail f : Running α) := fun _ _ w alike _ => ⟨w, rfl, alike.toShows⟩

theorem push_acts (v : Value) : Acts 0 1 (push v) := by
  intro printed m w alike
  unfold push
  rw [alike.stack]
  by_cases full : Machine.stackCapacity ≤ m.stack.size
  · simp only [full, if_true]
    exact fun _ => ⟨w, rfl, alike.toShows⟩
  · simp only [full, if_false]
    refine ⟨⟨rfl, rfl, rfl⟩, fun h enough => ?_, _, rfl, ⟨rfl, rfl, rfl⟩, ?_⟩
    · rw [Array.size_push]
      omega
    · exact alike.restack _

theorem pop_acts : Acts 1 0 pop := by
  intro printed m w alike
  unfold pop
  rw [alike.stack]
  cases top : m.stack.back? with
  | none => exact fun _ => ⟨w, rfl, alike.toShows⟩
  | some v =>
    refine ⟨⟨rfl, rfl, rfl⟩, fun h enough => ?_, _, rfl, ⟨rfl, rfl, rfl⟩, ?_⟩
    · rw [Array.size_pop]
      omega
    · exact alike.restack _

theorem popMany_acts (k : Nat) : Acts k 0 (popMany k) := by
  intro printed m w alike
  unfold popMany
  rw [alike.stack]
  by_cases enough : k ≤ m.stack.size
  · simp only [enough, if_true]
    refine ⟨⟨rfl, rfl, rfl⟩, fun h enough => ?_, _, rfl, ⟨rfl, rfl, rfl⟩, ?_⟩
    · simp only [Array.size_shrink]
      omega
    · exact alike.restack _
  · simp only [enough, if_false]
    exact fun _ => ⟨w, rfl, alike.toShows⟩

theorem drop_acts : Acts 1 0 drop := by
  intro printed m w alike
  refine ⟨⟨rfl, rfl, rfl⟩, fun h enough => ?_, _, rfl, ⟨rfl, rfl, rfl⟩, ?_⟩
  · simp only [Array.size_pop]
    omega
  · exact ⟨⟨alike.globals, alike.output⟩, alike.constants, congrArg Array.pop alike.stack, alike.base, alike.captured⟩

theorem ofExcept_acts (r : Except Fault α) : Acts a a (ofExcept r) := by
  cases r with
  | ok v => exact acts_pure v
  | error f => exact acts_fail f

theorem constant_acts (op : OpCode) (n : Nat) : Acts a a (constant op n) := by
  intro printed m w alike
  unfold constant
  cases present : m.constants[n]? with
  | some v =>
    have kept : w.constants[n]? = some v := by
      rw [← Array.getElem?_toList] at present ⊢
      obtain ⟨more, same⟩ := alike.constants
      obtain ⟨below, -⟩ := List.getElem?_eq_some_iff.mp present
      rw [← same, List.getElem?_append_left below, present]
    rw [kept]
    exact ⟨.refl m, fun _ enough => enough, w, rfl, .refl w, alike⟩
  | none =>
    intro same
    rw [← same, present]
    exact ⟨w, rfl, alike.toShows⟩

theorem global_acts (n : Nat) : Acts a a (global n) := by
  intro printed m w alike
  unfold global
  rw [alike.globals]
  exact ⟨.refl m, fun _ enough => enough, w, rfl, .refl w, alike⟩

theorem setGlobal_acts (op : OpCode) (n : Nat) (v : Value) : Acts a a (setGlobal op n v) := by
  intro printed m w alike
  unfold setGlobal
  rw [alike.globals]
  by_cases below : n < Machine.globalCapacity
  · simp only [below, if_true]
    refine ⟨⟨rfl, rfl, rfl⟩, fun _ enough => enough, _, rfl, ⟨rfl, rfl, rfl⟩, ?_⟩
    exact ⟨⟨rfl, alike.output⟩, alike.constants, alike.stack, alike.base, alike.captured⟩
  · simp only [below, if_false]
    exact fun _ => ⟨w, rfl, alike.toShows⟩

theorem getLocal_acts (op : OpCode) (n : Nat) : Acts a a (getLocal op n) := by
  intro printed m w alike
  unfold getLocal
  rw [alike.stack, alike.base]
  cases m.stack[m.frame.base + n]? with
  | some v => exact ⟨.refl m, fun _ enough => enough, w, rfl, .refl w, alike⟩
  | none => exact fun _ => ⟨w, rfl, alike.toShows⟩

theorem setLocal_acts (op : OpCode) (n : Nat) (v : Value) : Acts a a (setLocal op n v) := by
  intro printed m w alike
  unfold setLocal
  rw [alike.stack, alike.base]
  by_cases below : m.frame.base + n < m.stack.size
  · simp only [below, if_true]
    refine ⟨⟨rfl, rfl, rfl⟩, fun h enough => ?_, _, rfl, ⟨rfl, rfl, rfl⟩, ?_⟩
    · simpa using enough
    · exact alike.restack _
  · simp only [below, if_false]
    exact fun _ => ⟨w, rfl, alike.toShows⟩

theorem captured_acts (op : OpCode) (n : Nat) : Acts a a (captured op n) := by
  intro printed m w alike
  unfold captured
  rw [alike.captured]
  cases m.frame.captured[n]? with
  | some v => exact ⟨.refl m, fun _ enough => enough, w, rfl, .refl w, alike⟩
  | none => exact fun _ => ⟨w, rfl, alike.toShows⟩

theorem print_acts (lines : List String) :
    Acts a a (modify fun m => { m with output := m.output ++ lines } : Running PUnit) := by
  intro printed m w alike
  refine ⟨⟨rfl, rfl, rfl⟩, fun _ enough => enough, _, rfl, ⟨rfl, rfl, rfl⟩, ?_⟩
  refine ⟨⟨alike.globals, ?_⟩, alike.constants, alike.stack, alike.base, alike.captured⟩
  show w.output ++ lines = printed ++ (m.output ++ lines)
  rw [alike.output]
  apply Array.toList_inj.mp
  simp

-- What an instruction takes from the stack and adds to it, if it goes on behind itself whatever is running.
def usage (op : OpCode) (n m : Nat) : Option (Nat × Nat) :=
  match op with
  | .constant | .pushTrue | .pushFalse | .pushNull | .getGlobal | .getLocal | .getBuiltin | .getFree => some (0, 1)
  | .pop | .setGlobal | .assignGlobal | .setLocal | .assignLocal => some (1, 0)
  | .minus | .bang => some (1, 1)
  | .add | .sub | .mul | .div | .equal | .notEqual | .greater | .atLeast | .index => some (2, 1)
  | .array | .hash => some (n, 1)
  | .closure => some (m, 1)
  | .jump | .jumpUnless | .call | .returnValue | .returnNull | .currentClosure => none

theorem pushes_acts {x : Running Value} (acts : Acts a 0 x) : Acts a 1 (do push (← x); return Signal.next) :=
  acts_bind acts fun v => acts_bind (push_acts v) fun _ => acts_pure _

theorem unary_acts (f : Value → Except Fault Value) :
    Acts 1 1 (do let operand ← pop; push (← ofExcept (f operand)); return Signal.next) :=
  acts_bind pop_acts fun operand => pushes_acts (ofExcept_acts (f operand))

theorem binary_acts (f : Value → Value → Except Fault Value) :
    Acts 2 1 (do let rhs ← pop; let lhs ← pop; push (← ofExcept (f lhs rhs)); return Signal.next) :=
  acts_bind (acts_above pop_acts 1) fun rhs => acts_bind pop_acts fun lhs => pushes_acts (ofExcept_acts (f lhs rhs))

theorem writes_acts {f : Value → Running Unit} (acts : ∀ v, Acts 0 0 (f v)) :
    Acts 1 0 (do let v ← pop; f v; return Signal.next) :=
  acts_bind pop_acts fun v => acts_bind (acts v) fun _ => acts_pure _

theorem execute_acts {op : OpCode} {n m : Nat} (known : usage op n m = some (a, b)) : Acts a b (execute op n m) := by
  cases op <;> cases known
  case constant => exact pushes_acts (constant_acts _ n)
  case pushTrue | pushFalse | pushNull => exact acts_bind (push_acts _) fun _ => acts_pure _
  case getGlobal => exact pushes_acts (global_acts n)
  case getLocal => exact pushes_acts (getLocal_acts _ n)
  case getFree => exact pushes_acts (captured_acts _ n)
  case getBuiltin =>
    unfold execute
    cases Builtin.ofIndex? n with
    | some b => exact acts_bind (push_acts _) fun _ => acts_pure _
    | none => exact acts_fail _
  case pop => exact acts_bind drop_acts fun _ => acts_pure _
  case setGlobal | assignGlobal => exact writes_acts fun v => setGlobal_acts _ n v
  case setLocal | assignLocal => exact writes_acts fun v => setLocal_acts _ n v
  case minus | bang => exact unary_acts _
  case add | sub | mul | div | equal | notEqual | greater | atLeast => exact binary_acts _
  case index => exact binary_acts fun target position => Operation.index target position
  case array => exact acts_bind (popMany_acts _) fun items => acts_bind (push_acts _) fun _ => acts_pure _
  case hash => exact acts_bind (popMany_acts _) fun items => pushes_acts (ofExcept_acts (pairUp items []))
  case closure =>
    unfold execute
    refine acts_bind (constant_acts _ n) fun v => ?_
    cases v with
    | function routine => exact acts_bind (popMany_acts _) fun captured => acts_bind (push_acts _) fun _ => acts_pure _
    | _ => exact acts_fail _

end Running
end StackScript
