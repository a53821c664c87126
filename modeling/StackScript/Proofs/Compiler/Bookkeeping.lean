import StackScript.Proofs.Compiler.Emitting

-- The bookkeeping of a compiler is exact in every state that it comes to, however many programs it compiles and
-- however they fail.
namespace StackScript.Compiler

open Compiling

-- Programs one after the other. One that is refused leaves what was written of it, and the next is compiled there.
def compileAll : List Program → Compiler → Compiler
  | [], c => c
  | p :: rest, c => compileAll rest (outcome (statements p.statements) c)

-- A fragment for every scope, each of whole instructions, the newest of which is remembered as soon as there is one.
structure Exact (c : Compiler) : Prop where
  scopes : (c.fragment :: c.enclosing).length = c.symbols.depth + 1
  fragments : ∀ f ∈ c.fragment :: c.enclosing, ∃ is, f.Exact is ∧ (f.last.isSome = true ↔ 0 < f.code.size)

theorem Recorded.exact {c : Compiler} (recorded : c.Recorded) : c.Exact := by
  refine ⟨recorded.scopes, fun f present => ?_⟩
  obtain ⟨is, known⟩ := recorded.fragments f present
  exact ⟨is, known.toExact, known.filled⟩

theorem resume_recorded {symbols : SymbolTable} (outermost : symbols.depth = 0) (constants : Array Value) :
    (resume symbols constants).Recorded := by
  refine ⟨congrArg (· + 1) outermost.symm, fun f present => ?_⟩
  cases List.mem_singleton.mp present
  exact ⟨[], Fragment.empty_recorded⟩

theorem program_goes (p : Program) : Goes (statements p.statements) := statements_goes (body_goes p.statements)

theorem compileAll_edits {c : Compiler} (recorded : c.Recorded) (programs : List Program) :
    Edits c (compileAll programs c) := by
  induction programs generalizing c with
  | nil => exact .refl
  | cons p rest ih =>
    have first := program_goes p c recorded
    exact first.trans (ih (first.recorded recorded))

variable {symbols : SymbolTable}

-- Whatever is compiled, a compiler goes by edits, and all that it comes to is exact. A block that ends with an expression
-- is without the pop of that expression, and any other has null behind it. A function that ends with an expression has
-- the return of its value in place of the pop, and of any other nothing is replaced.
theorem emission_exact (outermost : symbols.depth = 0) (constants : Array Value) :
    (∀ programs, Edits (resume symbols constants) (compileAll programs (resume symbols constants))) ∧
    ∀ c, Edits (resume symbols constants) c →
      c.Exact ∧
      (∀ s, Edits c (outcome (statement s) c)) ∧
      (∀ e, Edits c (outcome (expression e) c)) ∧
      (∀ front span value, branch (statements (front ++ [.expression span value])) c =
        (do statements front; expression value; forget : Compiling Unit) c) ∧
      (∀ block, (∀ span value, block.getLast? ≠ some (.expression span value)) →
        branch (statements block) c = (do statements block; emit .pushNull [] : Compiling Unit) c) ∧
      ∀ own parameters span,
        (∀ front place value,
          makeFunction own parameters span (statements (front ++ [.expression place value])) c =
            functionOf own parameters span (do statements front; expression value; emit .returnValue []) c) ∧
        (∀ body place value, body.getLast? = some (.returns place value) →
          makeFunction own parameters span (statements body) c = functionOf own parameters span (statements body) c) ∧
        ∀ body, (∀ place value, body.getLast? ≠ some (.expression place value)) →
          (∀ place value, body.getLast? ≠ some (.returns place value)) →
          makeFunction own parameters span (statements body) c =
            functionOf own parameters span (do statements body; emit .returnNull []) c := by
  have start := resume_recorded outermost constants
  refine ⟨compileAll_edits start, fun c edits => ?_⟩
  have recorded := edits.recorded start
  obtain ⟨is, innermost⟩ := recorded.innermost
  refine ⟨recorded.exact, fun s => (statement_goes s).goes c recorded, fun e => (expression_yields e).goes c recorded,
    branch_value innermost.toExact, fun block other => branch_other innermost.toExact other,
    fun own parameters span => ⟨fun front place value => ?_, fun body place value last => ?_, fun body noValue noReturn => ?_⟩⟩
  · rw [makeFunction_eq, functionOf_congr fun d _ => finish_value d front place value]
  · rw [makeFunction_eq, functionOf_congr fun d _ => finish_return d last]
  · rw [makeFunction_eq, functionOf_congr fun d fresh => finish_other fresh noValue noReturn]

-- The first program is refused inside a function and leaves its scope open, and the second is compiled there.
def refusedInside : List Program :=
  [⟨[.expression .unknown (.function .unknown none [] [.expression .unknown (.identifier .unknown "x")])], none⟩,
    ⟨[.expression .unknown (.integer .unknown 1)], none⟩]

theorem emission_exact_refused :
    (compileAll refusedInside new).enclosing.length = 1 ∧
    (compileAll refusedInside new).fragment.last = some ⟨.pop, 3⟩ ∧
    (compileAll refusedInside new).Exact ∧
    branch (statements []) (compileAll refusedInside new) =
      (do statements []; emit .pushNull [] : Compiling Unit) (compileAll refusedInside new) := by
  have outermost : nativeNames.depth = 0 := congrArg List.length nativeNames_valid.2
  have edits : Edits new (compileAll refusedInside new) := (emission_exact outermost #[]).1 refusedInside
  obtain ⟨exact, -, -, -, others, -⟩ := (emission_exact outermost #[]).2 _ edits
  exact ⟨by decide +kernel, by decide +kernel, exact, others [] (by simp)⟩

end StackScript.Compiler
