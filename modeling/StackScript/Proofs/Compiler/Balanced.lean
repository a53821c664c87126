import StackScript.Proofs.Compiler.Trees

-- Code that is balanced: how high the stack stands at each point of a layout, above the locals. A derivation takes a
-- layout apart into pieces that any syntax tree is made of.
namespace StackScript

-- What an instruction takes from the stack and what it adds, for those that need to know nothing else.
def Instruction.effect? : Instruction → Option (Nat × Nat)
  | ⟨.pushTrue, []⟩ | ⟨.pushFalse, []⟩ | ⟨.pushNull, []⟩ => some (0, 1)
  | ⟨.minus, []⟩ | ⟨.bang, []⟩ => some (1, 1)
  | ⟨.add, []⟩ | ⟨.sub, []⟩ | ⟨.mul, []⟩ | ⟨.div, []⟩ | ⟨.equal, []⟩ | ⟨.notEqual, []⟩ | ⟨.greater, []⟩
  | ⟨.atLeast, []⟩ | ⟨.index, []⟩ => some (2, 1)
  | ⟨.array, [n]⟩ | ⟨.hash, [n]⟩ => some (n, 1)
  | ⟨.call, [n]⟩ => some (n + 1, 1)
  | ⟨.pop, []⟩ | ⟨.returnValue, []⟩ => some (1, 0)
  | _ => none

theorem Instruction.effect_call {i : Instruction} {takes gives : Nat} (effect : i.effect? = some (takes, gives))
    (call : i.opcode = .call) : ∃ given, i = ⟨.call, [given]⟩ ∧ takes = given + 1 ∧ gives = 1 := by
  unfold effect? at effect
  split at effect <;> cases effect <;> cases call
  exact ⟨_, rfl, rfl, rfl⟩

theorem Instruction.effect_returnValue {i : Instruction} {takes gives : Nat} (effect : i.effect? = some (takes, gives))
    (returns : i.opcode = .returnValue) : i = ⟨.returnValue, []⟩ ∧ takes = 1 ∧ gives = 0 := by
  unfold effect? at effect
  split at effect <;> cases effect <;> cases returns
  exact ⟨rfl, rfl, rfl⟩

def Value.Literal : Value → Prop
  | integer _ | float _ | string _ => True
  | _ => False

-- The instruction that ends a function, and how high the stack stands before it.
def Instruction.Ends (i : Instruction) (h : Nat) : Prop :=
  (i = ⟨.returnValue, []⟩ ∧ h = 1) ∨ (i = ⟨.returnNull, []⟩ ∧ h = 0)

inductive Balanced : Finished → Point → Nat → Point → Nat → Prop where
  | nothing {k : Finished} {p : Point} {h : Nat} : Balanced k p h p h
  | seq {k : Finished} {p m q : Point} {a b c : Nat} :
      Balanced k p a m b → Balanced k m b q c → Balanced k p a q c
  | plain {k : Finished} {p q : Point} {i : Instruction} {takes gives h : Nat} :
      i.effect? = some (takes, gives) → Layout.instruction i k p q → Balanced k p (h + takes) q (h + gives)
  | constant {k : Finished} {p q : Point} {v : Value} {h : Nat} :
      v.Literal → Layout.constant v k p q → Balanced k p h q (h + 1)
  | resolve {k : Finished} {p : Point} {x : String} {symbol : Symbol} {table : SymbolTable} {h : Nat} :
      p.symbols.resolve x = .ok (symbol, table) → Balanced k p h { p with symbols := table } h
  | read {k : Finished} {p q : Point} {symbol : Symbol} {h : Nat} :
      Layout.read symbol k p q → Balanced k p h q (h + 1)
  | assign {k : Finished} {p q : Point} {x : String} {symbol : Symbol} {table : SymbolTable} {i : Instruction} {h : Nat} :
      p.symbols.resolve x = .ok (symbol, table) → symbol.assigning? = some i → symbol.Within k →
      Layout.instruction i k { p with symbols := table } q → Balanced k p (h + 1) q h
  | bind {k : Finished} {p q : Point} {x : String} {mutability : Mutability} {symbol : Symbol} {table : SymbolTable}
      {h : Nat} :
      p.symbols.define x mutability = .ok (symbol, table) → Layout.set symbol k { p with symbols := table } q →
      Balanced k p (h + 1) q h
  -- Only a name that may get a new value is declared before the code of its first one.
  | bindEarly {k : Finished} {p m q : Point} {x : String} {symbol : Symbol} {table : SymbolTable} {h : Nat} :
      p.symbols.define x .assignable = .ok (symbol, table) → Balanced k { p with symbols := table } h m (h + 1) →
      Layout.set symbol k m q → Balanced k p h q h
  -- Both branches begin and end equally high.
  | choice {k : Finished} {p a b c d q : Point} {h : Nat} :
      Balanced k p h a (h + 1) → Layout.instruction ⟨.jumpUnless, [d.position]⟩ k a b →
      Balanced k b h c (h + 1) → Layout.instruction ⟨.jump, [q.position]⟩ k c d → Balanced k d h q (h + 1) →
      Balanced k p h q (h + 1)
  -- A body is balanced in a code of its own and ends by going back.
  | function {k : Finished} {p q m e last : Point} {own : Option (String × Mutability)} {parameters : List String}
      {code : Code} {scope : Scope} {first table : SymbolTable} {i : Instruction} {height h : Nat} :
      (p.symbols.enterAs own).Declares parameters first →
      Balanced (k.inner code scope) ⟨first, p.constants, 0⟩ 0 e height → i.Ends height →
      Layout.instruction i (k.inner code scope) e last → last.position = code.size →
      last.symbols.leave? = some (scope, table) →
      parameters.length ≤ 255 → scope.slots ≤ 255 → scope.captures.size ≤ 255 →
      (Routine.mk code parameters.length scope.slots).Compiled scope table →
      k.constants[last.constants]? = some (.function ⟨code, parameters.length, scope.slots⟩) →
      Balanced k ⟨table, last.constants, p.position⟩ h m (h + scope.captures.size) →
      m.constants = last.constants →
      Layout.instruction (Layout.making last.constants scope.captures.size) k { m with constants := m.constants + 1 } q →
      Balanced k p h q (h + 1)

theorem Symbol.assigning_kept {symbol : Symbol} {i : Instruction} (assigning : symbol.assigning? = some i) :
    symbol.storage = .global ∨ symbol.storage = .frame := by
  cases mutability : symbol.mutability <;> cases storage : symbol.storage <;>
    simp [Symbol.assigning?, mutability, storage] at assigning ⊢

theorem SymbolTable.define_kept {t u : SymbolTable} {name : String} {mutability : Mutability} {symbol : Symbol}
    (defined : t.define name mutability = .ok (symbol, u)) : symbol.storage = .global ∨ symbol.storage = .frame := by
  obtain ⟨-, rfl, -⟩ := SymbolTable.define_ok defined
  simp only
  split
  · exact .inl rfl
  · exact .inr rfl

namespace Layout

-- Layouts that leave `n` more values than they find.
def Adds (layout : Layout) (n : Nat) : Prop := ∀ k p q h, layout k p q → Balanced k p h q (h + n)

def Returns (layout : Layout) : Prop := ∀ k p q h, layout k p q →
  ∃ e i height, Balanced k p h e (h + height) ∧ i.Ends height ∧ instruction i k e q

theorem nothing_adds : nothing.Adds 0 := by
  rintro k p q h rfl
  exact .nothing

theorem seq_adds {first second : Layout} {m n : Nat} (one : first.Adds m) (two : second.Adds n) :
    (first.seq second).Adds (m + n) := by
  rintro k p q h ⟨middle, left, right⟩
  have tail := two k middle q (h + m) right
  rw [Nat.add_assoc] at tail
  exact (one k p middle h left).seq tail

theorem plain_adds {first : Layout} {i : Instruction} {takes gives : Nat} (effect : i.effect? = some (takes, gives))
    (one : first.Adds takes) : (first.seq (instruction i)).Adds gives := by
  rintro k p q h ⟨middle, left, right⟩
  exact (one k p middle h left).seq (.plain effect right)

theorem push_adds {i : Instruction} {gives : Nat} (effect : i.effect? = some (0, gives)) :
    (instruction i).Adds gives := by
  intro k p q h lies
  exact .plain effect lies

theorem constant_adds {v : Value} (literal : v.Literal) : (constant v).Adds 1 :=
  fun _ _ _ _ lies => .constant literal lies

theorem reads_adds (symbols : List Symbol) : (reads symbols).Adds symbols.length := by
  induction symbols with
  | nil => exact nothing_adds
  | cons symbol rest ih =>
    rw [List.length_cons, Nat.add_comm]
    exact seq_adds (fun _ _ _ _ lies => .read lies) ih

theorem reads_constants {symbols : List Symbol} {k : Finished} {p q : Point} (lies : reads symbols k p q) :
    q.constants = p.constants ∧ q.symbols = p.symbols := by
  induction symbols generalizing p with
  | nil =>
    cases lies
    exact ⟨rfl, rfl⟩
  | cons symbol rest ih =>
    obtain ⟨m, ⟨-, -, rfl⟩, others⟩ := lies
    have kept := ih others
    exact kept

theorem name_adds (x : String) : (name x).Adds 1 := by
  rintro k p q h ⟨symbol, table, found, lies⟩
  exact (Balanced.resolve found).seq (.read lies)

theorem assign_takes (x : String) {k : Finished} {p q : Point} {h : Nat} (lies : assign x k p q) :
    Balanced k p (h + 1) q h := by
  obtain ⟨symbol, table, i, found, assigning, within, lies⟩ := lies
  exact .assign found assigning within lies

theorem bind_takes (x : String) (mutability : Mutability) {k : Finished} {p q : Point} {h : Nat}
    (lies : bind x mutability k p q) : Balanced k p (h + 1) q h := by
  obtain ⟨symbol, table, defined, lies⟩ := lies
  exact .bind defined lies

theorem choice_adds {condition yes no : Layout} (one : condition.Adds 1) (two : yes.Adds 1) (three : no.Adds 1) :
    (choice condition yes no).Adds 1 := by
  rintro k p q h ⟨a, b, c, d, tested, skip, taken, leap, other⟩
  exact .choice (one k p a h tested) skip (two k b c h taken) leap (three k d q h other)

theorem function_adds {own : Option (String × Mutability)} {parameters : List String} {body : Layout}
    (returns : body.Returns) : (function own parameters body).Adds 1 := by
  rintro k p q h ⟨code, first, last, scope, table, m, declares, inside, size, left, few, slots, captures, compiled, made,
    read, making⟩
  obtain ⟨e, i, height, balanced, ends, ret⟩ := returns _ _ _ 0 inside
  rw [Nat.zero_add] at balanced
  have loaded := reads_adds scope.captures.toList k _ _ h read
  rw [Array.length_toList] at loaded
  exact .function declares balanced ends ret size left few slots captures compiled made loaded (reads_constants read).1 making

theorem inOrder_adds {pairs : List (Expr × Expr)} (each : ∀ p ∈ pairs, (Compiling.pairLayout p).Adds 2) :
    (inOrder (pairs.map fun p => (p.1.text, Compiling.pairLayout p))).Adds (2 * pairs.length) := by
  induction pairs with
  | nil => exact nothing_adds
  | cons p rest ih =>
    rw [List.length_cons, Nat.mul_succ, Nat.add_comm]
    exact seq_adds (each p List.mem_cons_self) (ih fun q present => each q (List.mem_cons_of_mem _ present))

theorem unary_effect {operator : String} {op : OpCode} (known : Compiling.unaryOpCode? operator = some op) :
    (Instruction.mk op []).effect? = some (1, 1) := by
  unfold Compiling.unaryOpCode? at known
  split at known <;> cases known <;> rfl

theorem binary_effect {operator : String} {op : OpCode} (known : Compiling.binaryOpCode? operator = some op) :
    (Instruction.mk op []).effect? = some (2, 1) := by
  unfold Compiling.binaryOpCode? at known
  split at known <;> cases known <;> rfl

-- What follows from a last statement, and from those before it.
structure StatementAdds (s : Stmt) : Prop where
  here : (statement s).Adds 0
  branch : (branch [s]).Adds 1
  finish : (finish [s]).Returns

theorem branch_adds {body : List Stmt} (each : ∀ s ∈ body, StatementAdds s) : (branch body).Adds 1 := by
  induction body with
  | nil => exact push_adds rfl
  | cons s rest ih =>
    have others := ih fun t present => each t (List.mem_cons_of_mem _ present)
    have mine := each s List.mem_cons_self
    cases rest with
    | nil => exact mine.branch
    | cons t rest =>
      rw [branch]
      · rw [← Nat.zero_add 1]
        exact seq_adds mine.here others
      · intro span value equal empty
        cases empty

theorem finish_returns {body : List Stmt} (each : ∀ s ∈ body, StatementAdds s) : (finish body).Returns := by
  induction body with
  | nil =>
    intro k p q h lies
    exact ⟨p, _, 0, .nothing, .inr ⟨rfl, rfl⟩, lies⟩
  | cons s rest ih =>
    have others := ih fun t present => each t (List.mem_cons_of_mem _ present)
    have mine := each s List.mem_cons_self
    cases rest with
    | nil => exact mine.finish
    | cons t rest =>
      rw [finish]
      · rintro k p q h ⟨m, first, lies⟩
        obtain ⟨e, i, height, balanced, ends, ret⟩ := others k m q h lies
        exact ⟨e, i, height, (mine.here k p m h first).seq balanced, ends, ret⟩
      · intro span value equal empty
        cases empty
      · intro span value equal empty
        cases empty

-- A statement that is no expression and no return is followed by the null that a block gives.
theorem adds_of_other {s : Stmt} (here : (statement s).Adds 0) (noValue : ∀ span v, s ≠ .expression span v)
    (noReturn : ∀ span v, s ≠ .returns span v) : StatementAdds s := by
  refine ⟨here, ?_, ?_⟩
  · rw [branch]
    · rw [← Nat.zero_add 1]
      exact seq_adds here (push_adds rfl)
    · intro span v equal
      exact absurd equal (noValue span v)
  · rw [finish]
    · rintro k p q h ⟨m, first, lies⟩
      exact ⟨m, _, 0, here k p m h first, .inr ⟨rfl, rfl⟩, lies⟩
    · intro span v equal
      exact absurd equal (noValue span v)
    · intro span v equal
      exact absurd equal (noReturn span v)

theorem expressions_adds {es : List Expr} (each : ∀ e ∈ es, (expression e).Adds 1) :
    (expressions es).Adds es.length := by
  induction es with
  | nil => exact nothing_adds
  | cons e rest ih =>
    rw [List.length_cons, Nat.add_comm]
    exact seq_adds (each e List.mem_cons_self) (ih fun f present => each f (List.mem_cons_of_mem _ present))

theorem bound_adds {value : Layout} (adds : value.Adds 1) (x : String) (mutability : Mutability) :
    (value.seq (bind x mutability)).Adds 0 := by
  rintro k p q h ⟨m, computed, bound⟩
  exact (adds k p m h computed).seq (bind_takes x mutability bound)

theorem declareFunction_adds {span place : Span} {mutability : Mutability} {name : String} {own : Option String}
    {parameters : List String} {body : List Stmt} (each : ∀ s ∈ body, StatementAdds s) :
    (statement (.declare span mutability name (.function place own parameters body))).Adds 0 := by
  intro k p q h lies
  have returns := finish_returns each
  rw [statement] at lies
  split at lies
  · rename_i early
    obtain ⟨rfl, -⟩ : mutability = .assignable ∧ p.symbols.isGlobal = true := by simpa using early
    obtain ⟨symbol, table, m, defined, made, set⟩ := lies
    exact .bindEarly defined (function_adds returns k _ m h made) set
  · exact bound_adds (function_adds returns) name mutability k p q h lies

mutual

theorem statement_adds : ∀ s : Stmt, StatementAdds s
  | .expression span value => by
    have inner := expression_adds value
    refine ⟨plain_adds rfl inner, inner, ?_⟩
    rintro k p q h ⟨m, computed, ret⟩
    exact ⟨m, _, 1, inner k p m h computed, .inl ⟨rfl, rfl⟩, ret⟩
  | .returns span value => by
    have inner := expression_adds value
    have here : (statement (.returns span value)).Adds 0 := plain_adds rfl inner
    refine ⟨here, ?_, ?_⟩
    · rw [← Nat.zero_add 1]
      exact seq_adds here (push_adds rfl)
    · rintro k p q h ⟨m, computed, ret⟩
      exact ⟨m, _, 1, inner k p m h computed, .inl ⟨rfl, rfl⟩, ret⟩
  | .assign span name value => by
    have inner := expression_adds value
    refine adds_of_other ?_ (by intros; simp) (by intros; simp)
    rintro k p q h ⟨m, computed, assigned⟩
    exact (inner k p m h computed).seq (assign_takes name assigned)
  | .declare span mutability name value => by
    have bound := bound_adds (expression_adds value) name mutability
    refine adds_of_other ?_ (by intros; simp) (by intros; simp)
    cases value with
    | function place own parameters body => exact declareFunction_adds (body_adds body)
    | _ => exact bound

theorem body_adds : ∀ body : List Stmt, ∀ s ∈ body, StatementAdds s
  | [], _, present => by cases present
  | first :: rest, s, present => by
    have here := statement_adds first
    have others := body_adds rest
    rcases List.mem_cons.mp present with rfl | later
    · exact here
    · exact others s later

theorem expression_adds : ∀ e : Expr, (expression e).Adds 1
  | .integer span n => constant_adds trivial
  | .float span x => constant_adds trivial
  | .string span s => constant_adds trivial
  | .boolean span true => push_adds rfl
  | .boolean span false => push_adds rfl
  | .identifier span x => name_adds x
  | .unary span operator right => by
    have inner := expression_adds right
    rintro k p q h ⟨op, known, lies⟩
    exact plain_adds (unary_effect known) inner k p q h lies
  | .binary span operator left right => by
    have first := expression_adds left
    have second := expression_adds right
    rintro k p q h ⟨op, known, lies⟩
    split at lies
    · obtain ⟨m, one, n, two, last⟩ := lies
      exact ((second k p m h one).seq (first k m n (h + 1) two)).seq (.plain (binary_effect known) last)
    · obtain ⟨m, one, n, two, last⟩ := lies
      exact ((first k p m h one).seq (second k m n (h + 1) two)).seq (.plain (binary_effect known) last)
  | .conditional span condition consequence none =>
    choice_adds (expression_adds condition) (branch_adds (body_adds consequence)) (push_adds rfl)
  | .conditional span condition consequence (some alternative) =>
    choice_adds (expression_adds condition) (branch_adds (body_adds consequence)) (branch_adds (body_adds alternative))
  | .array span elements => plain_adds rfl (expressions_adds (each_adds elements))
  | .hash span pairs => by
    have each := pairs_add pairs
    have sorted := inOrder_adds fun p (present : p ∈ pairs.mergeSort Compiling.byText) =>
      each p (List.mem_mergeSort.mp present)
    rw [List.length_mergeSort] at sorted
    rw [expression, Compiling.pairParts_eq, Compiling.sorted_map]
    exact plain_adds rfl sorted
  | .index span target position => by
    have first := expression_adds target
    have second := expression_adds position
    rintro k p q h ⟨m, one, n, two, last⟩
    exact ((first k p m h one).seq (second k m n (h + 1) two)).seq (.plain rfl last)
  | .function span own parameters body => function_adds (finish_returns (body_adds body))
  | .call span callee arguments => by
    have first := expression_adds callee
    have others := expressions_adds (each_adds arguments)
    rintro k p q h ⟨m, one, n, two, last⟩
    have loaded := (first k p m h one).seq (others k m n (h + 1) two)
    rw [Nat.add_assoc, Nat.add_comm 1] at loaded
    exact loaded.seq (.plain rfl last)

theorem each_adds : ∀ es : List Expr, ∀ e ∈ es, (expression e).Adds 1
  | [], _, present => by cases present
  | first :: rest, e, present => by
    have here := expression_adds first
    have others := each_adds rest
    rcases List.mem_cons.mp present with rfl | later
    · exact here
    · exact others e later

theorem pairs_add : ∀ pairs : List (Expr × Expr), ∀ p ∈ pairs, (Compiling.pairLayout p).Adds 2
  | [], _, present => by cases present
  | (key, value) :: rest, p, present => by
    have first := seq_adds (expression_adds key) (expression_adds value)
    have others := pairs_add rest
    rcases List.mem_cons.mp present with rfl | later
    · exact first
    · exact others p later

end

theorem statements_adds (body : List Stmt) : (statements body).Adds 0 := by
  induction body with
  | nil => exact nothing_adds
  | cons s rest ih => exact seq_adds (statement_adds s).here ih

end Layout
end StackScript
