import StackScript.Proofs.Compiler.Resuming
import StackScript.Proofs.Machine.Dropping
import StackScript.Proofs.Session.Safety

-- What a text of a session gives back: the value that its run dropped last. That is the value of its last expression statement
-- unless functions and branches drop others behind it.
namespace StackScript

namespace Machine

-- A run comes to a place of the main program, with these values on the stack.
structure Comes (m : Machine) (place : Nat) (stack : List Value) (n : Machine) : Prop where
  reached : ∃ count, m.run count = (.unfinished, n)
  main : n.callers = #[]
  next : n.frame.next = place
  stack : n.stack = stack.toArray

end Machine

namespace Session

theorem expression_between {s : Session} {p : Program} {c : Compiler} (sound : s.Sound)
    (compiled : (Compiler.resume s.symbols s.constants).compile p = .ok () c) {before after : List Stmt} {span : Span}
    {value : Expr} (statements : p.statements = before ++ .expression span value :: after) :
    ∃ d e, Compiling.statements before (Compiler.resume s.symbols s.constants) = .ok () d ∧
      Compiling.expression value d = .ok () e ∧
      Balanced c.finished (Compiler.resume s.symbols s.constants).point 0 d.point 0 ∧
      Balanced c.finished d.point 0 e.point 1 ∧
      c.fragment.code.itemAt e.fragment.code.size = .instruction ⟨.pop, []⟩ ∧
      (after = [] → c.fragment.code.size = e.fragment.code.size + OpCode.pop.width) := by
  have ready := Compiler.resume_ready sound.symbols s.constants
  have done := Compiler.compile_done sound.symbols sound.main compiled
  rw [Compiler.compile, statements, Compiling.statements_append_ok] at compiled
  obtain ⟨d, first, compiled⟩ := compiled
  obtain ⟨⟨⟩, f, expression, last⟩ := Compiling.bind_ok.mp compiled
  obtain ⟨⟨⟩, e, computed, dropped⟩ := Compiling.bind_ok.mp expression
  obtain ⟨front, r1, lies1⟩ := Compiling.statements_writes (fun t present => (Compiling.body_writes before t present).1)
    _ d ready first
  obtain ⟨middle, r2, lies2⟩ := Compiling.expression_writes value d e r1 computed
  obtain ⟨drop, r3, lies3⟩ := Compiling.emit_writes .pop [] e f r2 dropped
  obtain ⟨back, -, -⟩ := Compiling.statements_writes (fun t present => (Compiling.body_writes after t present).1) f c r3 last
  have whole := Compiler.finished_completes done.symbols done.main
  have third := whole.before back
  have second := third.before drop
  refine ⟨d, e, first, computed, ?_, ?_, ?_, ?_⟩
  · exact Layout.statements_adds before _ _ _ 0 (lies1 _ (second.before middle))
  · exact Layout.expression_adds value _ _ _ 0 (lies2 _ (second.behind (Nat.zero_le _)))
  · exact (lies3 _ (third.behind (Nat.zero_le _))).1
  · rintro rfl
    obtain ⟨-, rfl⟩ := Compiling.pure_ok.mp last
    exact congrArg Point.position (lies3 _ (third.behind (Nat.zero_le _))).2

theorem evaluate_result (budget : Nat) (source : String) :
    (evaluate budget source).result = (new.eval budget source).1.result.map (·.getD .null) := by
  have same : Bytecode.ofSource source = (new.compiled source).map Compiler.bytecode := by
    rw [Bytecode.ofSource, Session.compiled]
    cases Program.ofSource source <;> rfl
  rw [evaluate, same, eval_eq]
  cases new.compiled source <;> rfl

-- A text that runs to the end of its code gives back the value that was dropped last, whatever dropped it, and nothing if no
-- value was. Each of its expression statements is computed on an empty stack, and its value is dropped; that is the result
-- unless functions and branches drop others behind it, which they cannot behind the end. A text on its own gives null for
-- nothing.
theorem eval_result (inputs : List (Nat × String)) (budget : Nat) (source : String) (p : Program) (c : Compiler) (n : Machine)
    (parsed : Program.ofSource source = .ok p)
    (compiled : (Compiler.resume (new.after inputs).symbols (new.after inputs).constants).compile p = .ok () c)
    (run : (Machine.start c.bytecode (new.after inputs).globals).run budget = (.halted, n))
    (stays : ¬ (Machine.start c.bytecode (new.after inputs).globals).ReturnsFromMain) :
    ((new.after inputs).eval budget source).1.result =
      .ok ((Machine.start c.bytecode (new.after inputs).globals).drops budget).getLast? ∧
    (∀ before span value after, p.statements = before ++ .expression span value :: after →
      ∃ d e m o v others,
        Compiling.statements before (Compiler.resume (new.after inputs).symbols (new.after inputs).constants) = .ok () d ∧
        Compiling.expression value d = .ok () e ∧
        (Machine.start c.bytecode (new.after inputs).globals).Comes d.fragment.code.size [] m ∧
        m.Comes e.fragment.code.size [v] o ∧ o.drops budget = v :: others ∧
        ((new.after inputs).eval budget source).1.result = .ok (some (others.getLastD v)) ∧ (after = [] → others = [])) ∧
    (evaluate budget source).result = (new.eval budget source).1.result.map (·.getD .null) := by
  have sound := after_sound inputs
  obtain ⟨-, -, start⟩ := start_sound sound compiled
  have done := Compiler.compile_done sound.symbols sound.main compiled
  generalize new.after inputs = s at *
  have result : (s.eval budget source).1.result = .ok n.last := by
    have known : s.compiled source = .ok c := by
      simp only [Session.compiled, parsed, bind, Except.bind, Compiler.after, compiled]
    unfold Session.compiled at known
    rw [eval, known]
    simp only [run]
    rfl
  refine ⟨?_, ?_, ?_⟩
  · rw [result, start.run_last run stays]
    exact congrArg Except.ok Option.or_none
  · intro before span value after statements
    obtain ⟨d, e, first, computed, front, middle, drop, ends⟩ := expression_between sound compiled statements
    have begins : (Machine.start c.bytecode s.globals).Main c.constants c.fragment.code 0 0 := by
      rw [done.bytecode] at start ⊢
      exact ⟨start, rfl, rfl, rfl, rfl, rfl⟩
    obtain ⟨i, m, reached, main, rest, stays⟩ := (front.passes rfl begins).run run stays
    obtain ⟨j, o, reached', main', rest', stays'⟩ := (middle.passes rfl main).run rest stays
    obtain ⟨v, others, single, drops, last, finally_⟩ := main'.run_drops drop rest' stays'
    have empty : m.stack = [].toArray := Array.eq_empty_of_size_eq_zero main.size
    refine ⟨d, e, m, o, v, others, first, computed, ⟨⟨i, reached⟩, main.callers, main.next, empty⟩,
      ⟨⟨j, reached'⟩, main'.callers, main'.next, single⟩, drops, ?_, fun empty => finally_ (ends empty)⟩
    rw [result, last]
  · exact evaluate_result budget source

-- The value of the only expression statement is not the result where a function drops another value later.
theorem eval_result_hidden : ∃ (p : Program) (c : Compiler) (n : Machine),
    Program.ofSource "5; let a = f();" = .ok p ∧
    (Compiler.resume (new.after [(20, "let f = fn() { 1; 2 };")]).symbols
      (new.after [(20, "let f = fn() { 1; 2 };")]).constants).compile p = .ok () c ∧
    (Machine.start c.bytecode (new.after [(20, "let f = fn() { 1; 2 };")]).globals).run 20 = (.halted, n) ∧
    ¬ (Machine.start c.bytecode (new.after [(20, "let f = fn() { 1; 2 };")]).globals).ReturnsFromMain ∧
    ∃ five one : Value, five.text = "5" ∧ one.text = "1" ∧
      (Machine.start c.bytecode (new.after [(20, "let f = fn() { 1; 2 };")]).globals).drops 20 = [five, one] ∧
      ((new.after [(20, "let f = fn() { 1; 2 };")]).eval 20 "5; let a = f();").1.result = .ok (some one) := by
  have facts : (match Program.ofSource "5; let a = f();" with
      | .error _ => false
      | .ok p => match (Compiler.resume (new.after [(20, "let f = fn() { 1; 2 };")]).symbols
          (new.after [(20, "let f = fn() { 1; 2 };")]).constants).compile p with
        | .error _ _ => false
        | .ok _ c =>
          let m := Machine.start c.bytecode (new.after [(20, "let f = fn() { 1; 2 };")]).globals
          (m.run 20).1 = .halted && ((List.range 20).all fun early => !(m.run early).2.returnsNext) &&
            (m.drops 20).map Value.text = ["5", "1"]) = true := by decide +kernel
  split at facts
  · contradiction
  · rename_i p parsed
    split at facts
    · contradiction
    · rename_i c compiled
      simp only [Bool.and_eq_true, decide_eq_true_eq, List.all_eq_true, List.mem_range, Bool.not_eq_true'] at facts
      obtain ⟨⟨halts, each⟩, texts⟩ := facts
      have run : (Machine.start c.bytecode (new.after [(20, "let f = fn() { 1; 2 };")]).globals).run 20 = (.halted, _) :=
        Prod.ext halts rfl
      have stays := Machine.stays_of_run run (by simp) each
      obtain ⟨five, others, drops, first, rest⟩ := List.map_eq_cons_iff.mp texts
      obtain ⟨one, rfl, second⟩ := List.map_eq_singleton_iff.mp rest
      obtain ⟨result, -, -⟩ :=
        eval_result [(20, "let f = fn() { 1; 2 };")] 20 "5; let a = f();" p c _ parsed compiled run stays
      rw [drops] at result
      exact ⟨p, c, _, parsed, compiled, run, stays, five, one, first, second, drops, result⟩

end Session
end StackScript
