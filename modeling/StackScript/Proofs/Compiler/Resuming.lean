import StackScript.Proofs.Compiler.Shifts

-- A compiler that goes on from what an earlier one knows writes what that one would have written next.
namespace StackScript
namespace Compiling

open Compiler (Beside)
open Instruction (raise assemble)

theorem bind_shifts (x : String) (mutability : Mutability) (span : Span) :
    Shifts (do store (← define x mutability span) span) :=
  define_shifts fun symbol => store_shifts symbol span

theorem statements_shifts {body : List Stmt} (each : ∀ s ∈ body, Shifts (statement s)) : Shifts (statements body) := by
  induction body with
  | nil => exact pure_shifts
  | cons s rest ih =>
    rw [statements]
    exact seq_shifts (each s List.mem_cons_self) (ih fun t present => each t (List.mem_cons_of_mem _ present))

theorem expressions_shifts {es : List Expr} (each : ∀ e ∈ es, Shifts (expression e)) : Shifts (expressions es) := by
  induction es with
  | nil => exact pure_shifts
  | cons e rest ih =>
    rw [expressions]
    exact seq_shifts (each e List.mem_cons_self) (ih fun f present => each f (List.mem_cons_of_mem _ present))

theorem inOrder_shifts {steps : List (String × Compiling Unit)} (each : ∀ step ∈ steps, Shifts step.2) :
    Shifts (inOrder steps) := by
  induction steps with
  | nil => exact pure_shifts
  | cons step rest ih =>
    have others := ih fun s present => each s (List.mem_cons_of_mem _ present)
    exact seq_shifts (each step List.mem_cons_self) others

theorem declareFunction_shifts {span place : Span} {mutability : Mutability} {name : String} {own : Option String}
    {parameters : List String} {body : List Stmt} (shifts : Shifts (statements body)) :
    Shifts (statement (.declare span mutability name (.function place own parameters body))) := by
  have early : Shifts (do
      let symbol ← define name mutability span
      makeFunction none parameters place (statements body)
      store symbol span) :=
    define_shifts fun symbol => seq_shifts (makeFunction_shifts none parameters place shifts) (store_shifts symbol span)
  have late : Shifts (do
      makeFunction (some (name, mutability)) parameters place (statements body)
      store (← define name mutability span) span) :=
    seq_shifts (makeFunction_shifts _ parameters place shifts) (bind_shifts name mutability span)
  intro before js is c d e beside run
  -- Which of the two it is depends on the names, which are the same.
  rw [statement, bind_ok] at run
  obtain ⟨_, _, got, run⟩ := run
  obtain ⟨rfl, rfl⟩ := get_ok.mp got
  rename_i c
  unfold Follows
  rw [statement]
  simp only [bind_ok, get_ok]
  split at run
  · rename_i known
    obtain ⟨f, new, ran, others⟩ := early _ _ _ _ _ _ beside run
    rw [beside.symbols] at known
    refine ⟨f, new, ⟨_, _, ⟨rfl, rfl⟩, ?_⟩, others⟩
    rw [if_pos known]
    exact ran
  · rename_i unknown
    obtain ⟨f, new, ran, others⟩ := late _ _ _ _ _ _ beside run
    rw [beside.symbols] at unknown
    refine ⟨f, new, ⟨_, _, ⟨rfl, rfl⟩, ?_⟩, others⟩
    rw [if_neg unknown]
    exact ran

theorem unaryOp_straight {operator : String} {op : OpCode} (known : unaryOpCode? operator = some op) :
    op ≠ .jump ∧ op ≠ .jumpUnless := by
  unfold unaryOpCode? at known
  split at known <;> cases known <;> simp

theorem binaryOp_straight {operator : String} {op : OpCode} (known : binaryOpCode? operator = some op) :
    op ≠ .jump ∧ op ≠ .jumpUnless := by
  unfold binaryOpCode? at known
  split at known <;> cases known <;> simp

mutual

theorem statement_shifts : ∀ s : Stmt, Shifts (statement s)
  | .expression span value => by
    rw [statement]
    exact seq_shifts (expression_shifts value) (emit_shifts _ (by simp) (by simp))
  | .returns span value => by
    rw [statement]
    exact seq_shifts (expression_shifts value) (emit_shifts _ (by simp) (by simp))
  | .assign span name value => by
    rw [statement]
    exact seq_shifts (expression_shifts value) (assignTo_shifts name span)
  | .declare span mutability name value => by
    have bound := seq_shifts (expression_shifts value) (bind_shifts name mutability span)
    cases value with
    | function place own parameters body => exact declareFunction_shifts (statements_shifts (body_shifts body))
    | _ => exact bound

theorem body_shifts : ∀ body : List Stmt, ∀ s ∈ body, Shifts (statement s)
  | [], _, present => by cases present
  | first :: rest, s, present => by
    have here := statement_shifts first
    have others := body_shifts rest
    rcases List.mem_cons.mp present with rfl | later
    · exact here
    · exact others s later

theorem expression_shifts : ∀ e : Expr, Shifts (expression e)
  | .integer span n => emitConstant_shifts _ _
  | .float span x => emitConstant_shifts _ _
  | .string span s => emitConstant_shifts _ _
  | .boolean span true => emit_shifts _ (by simp) (by simp)
  | .boolean span false => emit_shifts _ (by simp) (by simp)
  | .identifier span name => resolve_shifts load_shifts
  | .unary span operator right => by
    have inner := expression_shifts right
    rw [expression]
    cases known : unaryOpCode? operator with
    | none => exact refuse_shifts _
    | some op => exact seq_shifts inner (emit_shifts _ (unaryOp_straight known).1 (unaryOp_straight known).2)
  | .binary span operator left right => by
    have first := expression_shifts left
    have second := expression_shifts right
    rw [expression]
    cases known : binaryOpCode? operator with
    | none => exact refuse_shifts _
    | some op =>
      have last := emit_shifts [] (binaryOp_straight known).1 (binaryOp_straight known).2
      simp only
      split
      · exact seq_shifts second (seq_shifts first last)
      · exact seq_shifts first (seq_shifts second last)
  | .conditional span condition consequence none =>
    conditional_shifts span (expression_shifts condition) (branch_shifts (statements_shifts (body_shifts consequence)))
      (emit_shifts _ (by simp) (by simp))
  | .conditional span condition consequence (some alternative) =>
    conditional_shifts span (expression_shifts condition) (branch_shifts (statements_shifts (body_shifts consequence)))
      (branch_shifts (statements_shifts (body_shifts alternative)))
  | .array span elements =>
    limited_shifts (seq_shifts (expressions_shifts (each_shifts elements)) (emit_shifts _ (by simp) (by simp)))
  | .hash span pairs => by
    have each := pairs_shift pairs
    rw [expression, pairSteps_eq]
    refine limited_shifts (seq_shifts (inOrder_shifts fun step present => ?_) (emit_shifts _ (by simp) (by simp)))
    obtain ⟨p, member, rfl⟩ := List.mem_map.mp (List.mem_mergeSort.mp present)
    exact each p member
  | .index span target position =>
    seq_shifts (expression_shifts target) (seq_shifts (expression_shifts position) (emit_shifts _ (by simp) (by simp)))
  | .function span own parameters body =>
    makeFunction_shifts _ parameters span (statements_shifts (body_shifts body))
  | .call span callee arguments =>
    limited_shifts (seq_shifts (expression_shifts callee)
      (seq_shifts (expressions_shifts (each_shifts arguments)) (emit_shifts _ (by simp) (by simp))))

theorem each_shifts : ∀ es : List Expr, ∀ e ∈ es, Shifts (expression e)
  | [], _, present => by cases present
  | first :: rest, e, present => by
    have here := expression_shifts first
    have others := each_shifts rest
    rcases List.mem_cons.mp present with rfl | later
    · exact here
    · exact others e later

theorem pairs_shift : ∀ pairs : List (Expr × Expr), ∀ p ∈ pairs, Shifts (pair p)
  | [], _, present => by cases present
  | (key, value) :: rest, p, present => by
    have first := seq_shifts (expression_shifts key) (expression_shifts value)
    have others := pairs_shift rest
    rcases List.mem_cons.mp present with rfl | later
    · exact first
    · exact others p later

end

theorem statements_append_ok {first second : List Stmt} {c e : Compiler} {a : Unit} :
    statements (first ++ second) c = .ok a e ↔ ∃ d, statements first c = .ok () d ∧ statements second d = .ok () e := by
  induction first generalizing c with
  | nil =>
    simp only [List.nil_append, statements, pure_ok]
    constructor
    · intro run
      exact ⟨c, ⟨trivial, rfl⟩, run⟩
    · rintro ⟨d, ⟨-, rfl⟩, run⟩
      exact run
  | cons s rest ih =>
    rw [List.cons_append, statements, bind_ok, statements]
    simp only [bind_ok, ih]
    grind

end Compiling

namespace Compiler

open Instruction (raise assemble)

theorem compile_assembles {p : Program} {symbols : SymbolTable} {constants : Array Value} {c : Compiler}
    (run : (resume symbols constants).compile p = .ok () c) : ∃ is, c.fragment.Beside [] is is c.fragment := by
  have same : Beside [] [] [] (resume symbols constants) (resume symbols constants) := ⟨rfl, rfl, Fragment.beside_empty⟩
  obtain ⟨f, new, ran, beside, -⟩ := Compiling.statements_shifts (Compiling.body_shifts p.statements) _ _ _ _ _ _ same run
  cases run.symm.trans ran
  simp only [List.length_nil, List.nil_append, funext Instruction.raise_zero, List.map_id'] at beside
  exact ⟨new, beside.fragment⟩

-- Going on with a program behind others writes what a compiler writes that only knows the names and the constants, with
-- the targets of the jumps raised.
theorem compile_resumed {p : Program} {c e : Compiler} {written : List Instruction}
    (assembled : c.fragment.Beside [] written written c.fragment) (run : c.compile p = .ok () e) :
    ∃ d is bytes, (resume c.symbols c.constants).compile p = .ok () d ∧ d.symbols = e.symbols ∧ d.constants = e.constants ∧
      assemble is = .ok d.fragment.code.toList ∧ assemble (is.map (raise c.fragment.code.size)) = .ok bytes ∧
      e.fragment.code.toList = c.fragment.code.toList ++ bytes := by
  have inside {ops : List OpCode} {a : Option Emitted} (remembers : Remembers 0 ops a a)
      (fit : OpCode.widths ops ≤ c.fragment.code.toList.length) (last : Emitted) (present : a = some last) :
      last.position < c.fragment.code.toList.length := by
    rcases remembers with ⟨forgotten, -⟩ | ⟨front, op, rfl, here, -⟩
    · rw [forgotten] at present
      cases present
    · rw [here] at present
      cases present
      rw [OpCode.widths_append, OpCode.widths_one] at fit
      have width := op.width_pos
      simp only
      omega
  have size := assembled.size_alone
  rw [← Array.length_toList] at size
  have start : Beside c.fragment.code.toList [] [] c (resume c.symbols c.constants) := by
    refine ⟨rfl, rfl, ⟨[], rfl, by simp⟩, rfl, rfl, .inl ⟨rfl, inside assembled.last (Nat.le_of_eq size.symm)⟩, .inl ⟨rfl,
      inside assembled.previous ?_⟩⟩
    rw [size]
    exact OpCode.widths_dropLast _
  obtain ⟨d, is, ran, beside, -⟩ := Compiling.statements_shifts (Compiling.body_shifts p.statements) _ _ _ _ _ _ start run
  obtain ⟨bytes, assembled, code⟩ := beside.fragment.whole
  rw [List.nil_append, Array.length_toList] at assembled
  have alone := beside.fragment.alone
  rw [List.nil_append] at alone
  exact ⟨d, is, bytes, ran, beside.symbols.symm, beside.constants.symm, alone, assembled, code⟩

end Compiler
end StackScript
