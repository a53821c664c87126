import StackScript.Proofs.Compiler.Records
import StackScript.Proofs.Compiler.Resuming

-- How blocks and function bodies end. What is taken back of a block is the pop of its own last statement, and what is
-- replaced in a function is the pop of the last statement of its body.
namespace StackScript

theorem Fragment.endsWith_some {f : Fragment} {op : OpCode} {since : Nat} (ends : f.endsWith op since = true) :
    ∃ e, f.last = some e ∧ e.opcode = op ∧ since ≤ e.position := by
  rw [endsWith] at ends
  split at ends
  · rename_i e last
    exact ⟨e, last, by simpa using ends⟩
  · cases ends

namespace Compiling

variable {α β : Type} {c d : Compiler} {is : List Instruction}

theorem after_ok {x : Compiling α} {a : α} (run : x c = .ok a d) (f : α → Compiling β) : (x >>= f) c = f a d := by
  simp only [bind, EStateM.bind, run]

theorem after_error {x : Compiling α} {r : Rejection} (run : x c = .error r d) (f : α → Compiling β) :
    (x >>= f) c = .error r d := by
  simp only [bind, EStateM.bind, run]

theorem after_same {x : Compiling α} {f g : α → Compiling β} (same : ∀ a d, x c = .ok a d → f a d = g a d) :
    (x >>= f) c = (x >>= g) c := by
  cases run : x c with
  | error r d => rw [after_error run, after_error run]
  | ok a d => rw [after_ok run, after_ok run, same a d run]

theorem statements_append (front rest : List Stmt) :
    statements (front ++ rest) = (do statements front; statements rest) := by
  induction front with
  | nil => simp [statements]
  | cons s front ih => simp [statements, ih]

theorem statements_value (front : List Stmt) (span : Span) (value : Expr) :
    statements (front ++ [.expression span value]) = (do (do statements front; expression value); emit .pop []) := by
  simp [statements_append, statements, statement]

def forget : Compiling Unit := modify fun c => { c with fragment := { c.fragment with previous := none } }

theorem branch_ok {m : Compiling Unit} (run : m c = .ok () d) : branch m c =
    if d.fragment.endsWith .pop c.fragment.code.size then .ok () { d with fragment := d.fragment.dropLast }
    else emit .pushNull [] d := by
  have start : branch m c = _ := (after_ok (position_ok.mpr ⟨rfl, rfl⟩) _).trans <|
    (after_ok run _).trans <| after_ok (get_ok.mpr ⟨rfl, rfl⟩) _
  rw [start]
  split
  · rfl
  · rfl

theorem branch_error {m : Compiling Unit} {r : Rejection} (run : m c = .error r d) : branch m c = .error r d :=
  (after_ok (position_ok.mpr ⟨rfl, rfl⟩) _).trans (after_error run _)

theorem branch_popped {m : Compiling Unit} (grows : ∀ d, m c = .ok () d → c.fragment.code.size ≤ d.fragment.code.size) :
    branch (do m; emit .pop []) c = (do m; forget) c := by
  cases run : m c with
  | error r d => rw [branch_error (after_error run _), after_error run]
  | ok a d =>
    have popped : (do m; emit .pop []) c = .ok () { d with fragment := d.fragment.append .pop [OpCode.pop.byte] } :=
      after_ok run _
    have ends : (d.fragment.append .pop [OpCode.pop.byte]).endsWith .pop c.fragment.code.size = true := by
      rw [endsWith_ok rfl]
      simpa using grows d run
    rw [branch_ok popped, if_pos ends, after_ok run, dropLast_append]
    rfl

theorem branch_open {m : Compiling Unit}
    (other : ∀ d, m c = .ok () d → d.fragment.endsWith .pop c.fragment.code.size = false) :
    branch m c = (do m; emit .pushNull []) c := by
  cases run : m c with
  | error r d => rw [branch_error run, after_error run]
  | ok a d =>
    rw [branch_ok run, if_neg (by simp [other d run]), after_ok run]

theorem shifts_size {m : Compiling Unit} (shifts : Shifts m) (exact : c.fragment.Exact is) (run : m c = .ok () d) :
    c.fragment.code.size ≤ d.fragment.code.size := by
  obtain ⟨f, new, ran, beside, -, -⟩ := shifts [] is is c c d ⟨rfl, rfl, exact.beside⟩ run
  cases run.symm.trans ran
  rw [exact.beside.size_alone, beside.fragment.size_alone, List.map_append, OpCode.widths_append]
  exact Nat.le_add_right _ _

theorem branch_value (exact : c.fragment.Exact is) (front : List Stmt) (span : Span) (value : Expr) :
    branch (statements (front ++ [.expression span value])) c = (do statements front; expression value; forget) c := by
  have written : Shifts (do statements front; expression value) :=
    seq_shifts (statements_shifts (body_shifts front)) (expression_shifts value)
  rw [statements_value, branch_popped fun d run => shifts_size written exact run]
  simp only [bind_assoc]

-- The last instruction of a block that ends with no expression is no pop, or was there before the block.
theorem branch_other (exact : c.fragment.Exact is) {block : List Stmt}
    (other : ∀ span value, block.getLast? ≠ some (.expression span value)) :
    branch (statements block) c = (do statements block; emit .pushNull []) c := by
  refine branch_open fun d run => ?_
  rcases List.eq_nil_or_concat block with rfl | ⟨front, s, rfl⟩
  · obtain ⟨-, rfl⟩ := pure_ok.mp run
    cases last : d.fragment.last with
    | none => simp [Fragment.endsWith, last]
    | some e =>
      have inside := exact.inside last
      rw [endsWith_ok last]
      simp
      omega
  · rw [List.concat_eq_append] at run other
    obtain ⟨b, -, ran⟩ := statements_snoc_ok.mp run
    obtain ⟨e, last, popped, -⟩ := statement_last ran
    have apart : e.opcode ≠ .pop := by
      intro equal
      obtain ⟨span, value, rfl⟩ := popped.mp equal
      exact other span value (by simp)
    rw [endsWith_ok last]
    simp [apart]

theorem finishBody_open (other : c.fragment.endsWith .pop 0 = false) : finishBody c =
    if c.fragment.endsWith .returnValue 0 then .ok () c else emit .returnNull [] c := by
  have start : finishBody c = _ := after_ok (get_ok.mpr ⟨rfl, rfl⟩) _
  rw [start, if_neg (by simp [other])]
  refine (after_ok (get_ok.mpr ⟨rfl, rfl⟩) _).trans ?_
  cases c.fragment.endsWith .returnValue 0 <;> rfl

theorem finishBody_popped {f : Fragment} (written : c.fragment = f.append .pop [OpCode.pop.byte]) :
    finishBody c = .ok () { c with fragment := f.append .returnValue [OpCode.returnValue.byte] } := by
  have ends : c.fragment.endsWith .pop 0 = true := by
    rw [written, endsWith_ok rfl]
    simp
  have start : finishBody c = _ := after_ok (get_ok.mpr ⟨rfl, rfl⟩) _
  rw [start, if_pos ends]
  refine (after_ok rfl _).trans ?_
  refine (after_ok (get_ok.mpr ⟨rfl, rfl⟩) _).trans ?_
  have returned : (c.fragment.replaceLast .returnValue).endsWith .returnValue 0 = true := by
    rw [written, replaceLast_append, endsWith_ok rfl]
    simp
  simp only [returned, Bool.not_true, Bool.false_eq_true, if_false]
  rw [written, replaceLast_append]
  rfl

-- A body that ends with an expression gives its value back in place of dropping it.
theorem finish_value (c : Compiler) (front : List Stmt) (span : Span) (value : Expr) :
    (do statements (front ++ [.expression span value]); finishBody : Compiling Unit) c =
      (do statements front; expression value; emit .returnValue [] : Compiling Unit) c := by
  rw [statements_value]
  have together : (do statements front; expression value; emit .returnValue [] : Compiling Unit) =
    (do (do statements front; expression value); emit .returnValue []) := by rw [bind_assoc]
  rw [together]
  cases run : (do statements front; expression value : Compiling Unit) c with
  | error r d => rw [after_error (after_error run _), after_error run]
  | ok a d =>
    have popped : (do (do statements front; expression value); emit .pop [] : Compiling Unit) c =
      .ok () { d with fragment := d.fragment.append .pop [OpCode.pop.byte] } := after_ok run _
    rw [after_ok popped, after_ok run, finishBody_popped rfl]
    rfl

theorem finish_return (c : Compiler) {body : List Stmt} {span : Span} {value : Expr}
    (last : body.getLast? = some (.returns span value)) :
    (do statements body; finishBody : Compiling Unit) c = statements body c := by
  cases run : statements body c with
  | error r d => rw [after_error run]
  | ok a d =>
    obtain ⟨front, rfl⟩ := List.getLast?_eq_some_iff.mp last
    obtain ⟨b, -, ran⟩ := statements_snoc_ok.mp run
    obtain ⟨e, newest, -, returned⟩ := statement_last ran
    have opcode : e.opcode = .returnValue := returned.mpr ⟨span, value, rfl⟩
    have ends (op : OpCode) : d.fragment.endsWith op 0 = decide (op = .returnValue) := by
      rw [endsWith_ok newest, opcode]
      simp [eq_comm]
    rw [after_ok run, finishBody_open (by simp [ends]), if_pos (by simp [ends])]

theorem finish_other (fresh : c.fragment = .empty) {body : List Stmt}
    (noValue : ∀ span value, body.getLast? ≠ some (.expression span value))
    (noReturn : ∀ span value, body.getLast? ≠ some (.returns span value)) :
    (do statements body; finishBody : Compiling Unit) c = (do statements body; emit .returnNull [] : Compiling Unit) c := by
  cases run : statements body c with
  | error r d => rw [after_error run, after_error run]
  | ok a d =>
    have ends (op : OpCode) (known : op = .pop ∨ op = .returnValue) : d.fragment.endsWith op 0 = false := by
      rcases List.eq_nil_or_concat body with rfl | ⟨front, s, rfl⟩
      · obtain ⟨-, rfl⟩ := pure_ok.mp run
        rw [fresh]
        rfl
      · rw [List.concat_eq_append] at run noValue noReturn
        obtain ⟨b, -, ran⟩ := statements_snoc_ok.mp run
        obtain ⟨e, newest, popped, returned⟩ := statement_last ran
        have apart : e.opcode ≠ op := by
          intro equal
          rcases known with rfl | rfl
          · obtain ⟨span, value, rfl⟩ := popped.mp equal
            exact noValue span value (by simp)
          · obtain ⟨span, value, rfl⟩ := returned.mp equal
            exact noReturn span value (by simp)
        rw [endsWith_ok newest]
        simp [apart]
    rw [after_ok run, after_ok run, finishBody_open (ends _ (.inl rfl)), ends _ (.inr rfl)]
    rfl

-- Makes a function of what a step writes in a scope of its own.
def functionOf (own : Option (String × Mutability)) (parameters : List String) (span : Span) (written : Compiling Unit) :
    Compiling Unit := do
  checkLimit parameters.length narrow "parameters" span
  modify (entered own)
  declareAll span parameters
  written
  let (code, scope) ← leave
  checkLimit scope.slots narrow "local bindings" span
  checkLimit scope.captures.size narrow "captured variables" span
  madeFrom code scope parameters.length span

variable {own : Option (String × Mutability)} {parameters : List String} {span : Span}

theorem makeFunction_eq (body : Compiling Unit) :
    makeFunction own parameters span body = functionOf own parameters span (do body; finishBody) := by
  unfold functionOf
  simp only [bind_assoc]
  cases own with
  | none => rfl
  | some pair => rfl

theorem declareAll_fragment {names : List String} (run : declareAll span names c = .ok () d) :
    d.fragment = c.fragment := by
  induction names generalizing c with
  | nil =>
    obtain ⟨-, rfl⟩ := pure_ok.mp run
    rfl
  | cons name rest ih =>
    obtain ⟨symbol, b, defined, others⟩ := bind_ok.mp run
    obtain ⟨table, -, rfl⟩ := define_ok.mp defined
    exact (ih others).trans rfl

theorem functionOf_congr {one two : Compiling Unit} (same : ∀ c, c.fragment = .empty → one c = two c) :
    functionOf own parameters span one = functionOf own parameters span two := by
  funext c
  refine after_same fun _ d _ => after_same fun _ e entering => after_same fun _ f declared => ?_
  obtain rfl := modify_ok.mp entering
  have fresh : f.fragment = .empty := declareAll_fragment declared
  simp only [bind, EStateM.bind, same f fresh]

end Compiling
end StackScript
