import StackScript.Proofs.Compiler.Origins
import StackScript.Proofs.Machine.Halting

-- What a closure captures is gathered right before the closure is made: one name after the other is read, and nothing
-- else happens in between, on whatever way the code is run.
namespace StackScript

def OpCode.reads : OpCode → Bool
  | .getGlobal | .getLocal | .getBuiltin | .getFree | .currentClosure => true
  | _ => false

-- From a point on, where the last so many instructions have read names, no closure is made of more than those that were
-- just read.
inductive Code.Fed (code : Code) : Nat → Nat → Prop where
  | of {a count : Nat} :
      (∀ i, code.itemAt a = .instruction i → i.opcode = .closure → i.operands[1]?.getD 0 ≤ count) →
      (∀ i b, code.itemAt a = .instruction i → i.GoesOn a b → Fed code b (if i.opcode.reads then count + 1 else 0)) →
      Fed code a count

def Instruction.Straight (i : Instruction) : Prop := i.opcode ≠ .closure ∧ i.opcode ≠ .jump ∧ i.opcode ≠ .jumpUnless

namespace Code.Fed

variable {code : Code} {a b count : Nat} {i : Instruction}

theorem enough (fed : code.Fed a count) (item : code.itemAt a = .instruction i) (closure : i.opcode = .closure) :
    i.operands[1]?.getD 0 ≤ count := by
  cases fed with
  | of enough _ => exact enough i item closure

theorem onward (fed : code.Fed a count) (item : code.itemAt a = .instruction i) (goes : i.GoesOn a b) :
    code.Fed b (if i.opcode.reads then count + 1 else 0) := by
  cases fed with
  | of _ onward => exact onward i b item goes

theorem mono (fed : code.Fed a count) {more : Nat} (order : count ≤ more) : code.Fed a more := by
  induction fed generalizing more with
  | of enough _ ih =>
    refine .of (fun i item closure => Nat.le_trans (enough i item closure) order) fun i b item goes => ih i b item goes ?_
    split
    · exact Nat.succ_le_succ order
    · exact Nat.le_refl 0

theorem known (item : code.itemAt a = .instruction i) (enough : i.opcode = .closure → i.operands[1]?.getD 0 ≤ count)
    (onward : ∀ b, i.GoesOn a b → code.Fed b (if i.opcode.reads then count + 1 else 0)) : code.Fed a count := by
  have same {j : Instruction} (here : code.itemAt a = .instruction j) : i = j :=
    Code.Item.instruction.inj (item.symm.trans here)
  refine .of (fun j here => ?_) fun j b here => ?_
  · cases same here
    exact enough
  · cases same here
    exact onward b

theorem behind (item : code.itemAt a = .instruction i) (straight : i.Straight)
    (rest : code.Fed (a + i.opcode.width) (if i.opcode.reads then count + 1 else 0)) : code.Fed a count := by
  refine known item (fun closure => absurd closure straight.1) fun b goes => ?_
  have follows : code.Follows a b := ⟨i, item, goes⟩
  rw [follows.behind item straight.2.1 straight.2.2]
  exact rest

theorem ends (nothing : code.itemAt a = .nothing) : code.Fed a count := by
  refine .of (fun i item => ?_) fun i b item => ?_
  all_goals
    rw [nothing] at item
    cases item

end Code.Fed

namespace Instruction

variable {i : Instruction}

theorem effect_straight {takes gives : Nat} (effect : i.effect? = some (takes, gives)) : i.Straight := by
  unfold effect? at effect
  split at effect <;> cases effect <;> simp [Straight]

theorem reading_reads (symbol : Symbol) : symbol.reading.opcode.reads = true := by
  cases storage : symbol.storage <;> simp [Symbol.reading, storage, OpCode.reads]

theorem reading_straight (symbol : Symbol) : symbol.reading.Straight := by
  cases storage : symbol.storage <;> simp [Symbol.reading, storage, Straight]

theorem setting_straight (symbol : Symbol) : symbol.setting.Straight := by
  unfold Symbol.setting
  split <;> simp [Straight]

theorem assigning_straight {symbol : Symbol} (assigning : symbol.assigning? = some i) : i.Straight := by
  unfold Symbol.assigning? at assigning
  split at assigning <;> cases assigning <;> simp [Straight]

end Instruction

namespace Layout

-- Layouts that can be run where what stands behind them can be.
def Feeds (layout : Layout) : Prop := ∀ k p q, layout k p q → k.code.Fed q.position 0 → k.code.Fed p.position 0

theorem nothing_feeds : nothing.Feeds := by
  rintro k p q rfl fed
  exact fed

theorem seq_feeds {first second : Layout} (one : first.Feeds) (two : second.Feeds) : (first.seq second).Feeds := by
  rintro k p q ⟨m, left, right⟩ fed
  exact one k p m left (two k m q right fed)

theorem instruction_feeds {i : Instruction} (straight : i.Straight) : (instruction i).Feeds := by
  rintro k p q ⟨item, rfl⟩ fed
  exact .behind item straight (fed.mono (Nat.zero_le _))

theorem plain_feeds {i : Instruction} {takes gives : Nat} (effect : i.effect? = some (takes, gives)) :
    (instruction i).Feeds := instruction_feeds (Instruction.effect_straight effect)

theorem constant_feeds (v : Value) : (constant v).Feeds := by
  rintro k p q ⟨-, lies⟩ fed
  have straight : (Instruction.mk .constant [p.constants]).Straight := by simp [Instruction.Straight]
  exact instruction_feeds straight k { p with constants := p.constants + 1 } q lies fed

theorem read_feeds (symbol : Symbol) : (read symbol).Feeds :=
  fun k p q lies fed => instruction_feeds (Instruction.reading_straight symbol) k p q lies.2 fed

theorem name_feeds (x : String) : (name x).Feeds := by
  rintro k p q ⟨symbol, table, -, lies⟩ fed
  exact read_feeds symbol k { p with symbols := table } q lies fed

theorem assign_feeds (x : String) : (assign x).Feeds := by
  rintro k p q ⟨symbol, table, i, -, assigning, -, lies⟩ fed
  exact instruction_feeds (Instruction.assigning_straight assigning) k { p with symbols := table } q lies fed

theorem set_feeds (symbol : Symbol) : (set symbol).Feeds :=
  fun k p q lies fed => instruction_feeds (Instruction.setting_straight symbol) k p q lies.2 fed

theorem bind_feeds (x : String) (mutability : Mutability) : (bind x mutability).Feeds := by
  rintro k p q ⟨symbol, table, -, lies⟩ fed
  exact set_feeds symbol k { p with symbols := table } q lies fed

theorem reads_feed (symbols : List Symbol) {k : Finished} {p q : Point} {count : Nat} (lies : reads symbols k p q)
    (fed : k.code.Fed q.position (count + symbols.length)) : k.code.Fed p.position count := by
  induction symbols generalizing p count with
  | nil =>
    cases lies
    exact fed
  | cons symbol rest ih =>
    obtain ⟨m, ⟨-, item, rfl⟩, others⟩ := lies
    rw [List.length_cons, Nat.add_comm rest.length, ← Nat.add_assoc] at fed
    refine .behind item (Instruction.reading_straight symbol) ?_
    rw [Instruction.reading_reads, if_pos rfl]
    exact ih others fed

-- A closure is made of as many values as there are names to capture.
theorem making_feeds {k : Finished} {p q : Point} {index captured : Nat} (lies : instruction (making index captured) k p q)
    (fed : k.code.Fed q.position 0) : k.code.Fed p.position captured := by
  unfold making at lies
  split at lies
  · exact (instruction_feeds (by simp [Instruction.Straight]) k p q lies fed).mono (Nat.zero_le _)
  · obtain ⟨item, rfl⟩ := lies
    refine .known item (fun _ => Nat.le_refl captured) fun b goes => ?_
    cases goes
    exact fed

theorem function_feeds (own : Option (String × Mutability)) (parameters : List String) (body : Layout) :
    (function own parameters body).Feeds := by
  rintro k p q ⟨code, first, last, scope, table, m, -, -, -, -, -, -, -, -, -, loaded, made⟩ fed
  refine reads_feed scope.captures.toList (p := ⟨table, last.constants, p.position⟩) loaded ?_
  rw [Nat.zero_add, Array.length_toList]
  exact making_feeds (p := { m with constants := m.constants + 1 }) made fed

theorem choice_feeds {condition yes no : Layout} (one : condition.Feeds) (two : yes.Feeds) (three : no.Feeds) :
    (choice condition yes no).Feeds := by
  rintro k p q ⟨a, b, c, d, tested, ⟨skip, rfl⟩, taken, ⟨leap, rfl⟩, other⟩ fed
  have later := three k _ q other fed
  have leaps : k.code.Fed c.position 0 := by
    refine .known leap (fun closure => by cases closure) fun b goes => ?_
    cases goes
    exact fed
  have first := two k _ c taken leaps
  refine one k p a tested (.known skip (fun closure => by cases closure) fun b goes => ?_)
  rcases goes with rfl | rfl
  · exact later
  · exact first

theorem inOrder_feeds {pairs : List (Expr × Expr)} (each : ∀ p ∈ pairs, (Compiling.pairLayout p).Feeds) :
    (inOrder (pairs.map fun p => (p.1.text, Compiling.pairLayout p))).Feeds := by
  induction pairs with
  | nil => exact nothing_feeds
  | cons p rest ih =>
    exact seq_feeds (each p List.mem_cons_self) (ih fun q present => each q (List.mem_cons_of_mem _ present))

structure StatementFeeds (s : Stmt) : Prop where
  here : (statement s).Feeds
  branch : (branch [s]).Feeds
  finish : (finish [s]).Feeds

theorem branch_feeds {body : List Stmt} (each : ∀ s ∈ body, StatementFeeds s) : (branch body).Feeds := by
  induction body with
  | nil => exact plain_feeds rfl
  | cons s rest ih =>
    have others := ih fun t present => each t (List.mem_cons_of_mem _ present)
    have mine := each s List.mem_cons_self
    cases rest with
    | nil => exact mine.branch
    | cons t rest =>
      rw [branch]
      · exact seq_feeds mine.here others
      · intro span value equal empty
        cases empty

theorem returnNull_feeds : (instruction ⟨.returnNull, []⟩).Feeds :=
  instruction_feeds (by simp [Instruction.Straight])

theorem finish_feeds {body : List Stmt} (each : ∀ s ∈ body, StatementFeeds s) : (finish body).Feeds := by
  induction body with
  | nil => exact returnNull_feeds
  | cons s rest ih =>
    have others := ih fun t present => each t (List.mem_cons_of_mem _ present)
    have mine := each s List.mem_cons_self
    cases rest with
    | nil => exact mine.finish
    | cons t rest =>
      rw [finish]
      · exact seq_feeds mine.here others
      · intro span value equal empty
        cases empty
      · intro span value equal empty
        cases empty

theorem feeds_of_other {s : Stmt} (here : (statement s).Feeds) (noValue : ∀ span v, s ≠ .expression span v)
    (noReturn : ∀ span v, s ≠ .returns span v) : StatementFeeds s := by
  refine ⟨here, ?_, ?_⟩
  · rw [branch]
    · exact seq_feeds here (plain_feeds rfl)
    · intro span v equal
      exact absurd equal (noValue span v)
  · rw [finish]
    · exact seq_feeds here returnNull_feeds
    · intro span v equal
      exact absurd equal (noValue span v)
    · intro span v equal
      exact absurd equal (noReturn span v)

theorem expressions_feed {es : List Expr} (each : ∀ e ∈ es, (expression e).Feeds) : (expressions es).Feeds := by
  induction es with
  | nil => exact nothing_feeds
  | cons e rest ih =>
    exact seq_feeds (each e List.mem_cons_self) (ih fun f present => each f (List.mem_cons_of_mem _ present))

theorem declareFunction_feeds {span place : Span} {mutability : Mutability} {name : String} {own : Option String}
    {parameters : List String} {body : List Stmt} :
    (statement (.declare span mutability name (.function place own parameters body))).Feeds := by
  intro k p q lies fed
  rw [statement] at lies
  split at lies
  · obtain ⟨symbol, table, m, -, made, set⟩ := lies
    exact function_feeds none parameters (Layout.finish body) k { p with symbols := table } m made
      (set_feeds symbol k m q set fed)
  · exact seq_feeds (function_feeds _ parameters _) (bind_feeds name mutability) k p q lies fed

mutual

theorem statement_feeds : ∀ s : Stmt, StatementFeeds s
  | .expression span value => by
    have inner := expression_feeds value
    exact ⟨seq_feeds inner (plain_feeds rfl), inner, seq_feeds inner (plain_feeds rfl)⟩
  | .returns span value => by
    have here : (statement (.returns span value)).Feeds := seq_feeds (expression_feeds value) (plain_feeds rfl)
    exact ⟨here, seq_feeds here (plain_feeds rfl), here⟩
  | .assign span name value =>
    feeds_of_other (seq_feeds (expression_feeds value) (assign_feeds name)) (by intros; simp) (by intros; simp)
  | .declare span mutability name value => by
    have bound := seq_feeds (expression_feeds value) (bind_feeds name mutability)
    refine feeds_of_other ?_ (by intros; simp) (by intros; simp)
    cases value with
    | function place own parameters body => exact declareFunction_feeds
    | _ => exact bound

theorem body_feeds : ∀ body : List Stmt, ∀ s ∈ body, StatementFeeds s
  | [], _, present => by cases present
  | first :: rest, s, present => by
    have here := statement_feeds first
    have others := body_feeds rest
    rcases List.mem_cons.mp present with rfl | later
    · exact here
    · exact others s later

theorem expression_feeds : ∀ e : Expr, (expression e).Feeds
  | .integer span n => constant_feeds _
  | .float span x => constant_feeds _
  | .string span s => constant_feeds _
  | .boolean span true => plain_feeds rfl
  | .boolean span false => plain_feeds rfl
  | .identifier span x => name_feeds x
  | .unary span operator right => by
    have inner := expression_feeds right
    rintro k p q ⟨op, known, lies⟩ fed
    exact seq_feeds inner (plain_feeds (unary_effect known)) k p q lies fed
  | .binary span operator left right => by
    have first := expression_feeds left
    have second := expression_feeds right
    rintro k p q ⟨op, known, lies⟩ fed
    have last := plain_feeds (binary_effect known)
    split at lies
    · exact seq_feeds second (seq_feeds first last) k p q lies fed
    · exact seq_feeds first (seq_feeds second last) k p q lies fed
  | .conditional span condition consequence none =>
    choice_feeds (expression_feeds condition) (branch_feeds (body_feeds consequence)) (plain_feeds rfl)
  | .conditional span condition consequence (some alternative) =>
    choice_feeds (expression_feeds condition) (branch_feeds (body_feeds consequence)) (branch_feeds (body_feeds alternative))
  | .array span elements =>
    seq_feeds (expressions_feed (each_feeds elements)) (plain_feeds rfl)
  | .hash span pairs => by
    have each := pairs_feed pairs
    have sorted := inOrder_feeds fun p (present : p ∈ pairs.mergeSort Compiling.byText) =>
      each p (List.mem_mergeSort.mp present)
    rw [expression, Compiling.pairParts_eq, Compiling.sorted_map]
    exact seq_feeds sorted (plain_feeds rfl)
  | .index span target position =>
    seq_feeds (expression_feeds target) (seq_feeds (expression_feeds position) (plain_feeds rfl))
  | .function span own parameters body => function_feeds _ parameters _
  | .call span callee arguments =>
    seq_feeds (expression_feeds callee) (seq_feeds (expressions_feed (each_feeds arguments)) (plain_feeds rfl))

theorem each_feeds : ∀ es : List Expr, ∀ e ∈ es, (expression e).Feeds
  | [], _, present => by cases present
  | first :: rest, e, present => by
    have here := expression_feeds first
    have others := each_feeds rest
    rcases List.mem_cons.mp present with rfl | later
    · exact here
    · exact others e later

theorem pairs_feed : ∀ pairs : List (Expr × Expr), ∀ p ∈ pairs, (Compiling.pairLayout p).Feeds
  | [], _, present => by cases present
  | (key, value) :: rest, p, present => by
    have first := seq_feeds (expression_feeds key) (expression_feeds value)
    have others := pairs_feed rest
    rcases List.mem_cons.mp present with rfl | later
    · exact first
    · exact others p later

end

theorem statements_feed (body : List Stmt) : (statements body).Feeds := by
  induction body with
  | nil => exact nothing_feeds
  | cons s rest ih => exact seq_feeds (statement_feeds s).here ih

end Layout

namespace Routine.Compiled

variable {r : Routine} {scope : Scope} {around : SymbolTable}

theorem lies (compiled : r.Compiled scope around) : ∃ (body : List Stmt) (k : Finished) (p q : Point),
    Layout.finish body k p q ∧ k.code = r.code ∧ p.position = 0 ∧ q.position = r.code.size := by
  obtain ⟨own, parameters, span, body, c, g, valid, run, -⟩ := compiled
  simp only [Compiling.functionBody, Compiling.bind_ok] at run
  obtain ⟨⟨⟩, d, declared, ⟨⟩, e, written, ⟨⟩, f, finished, left⟩ := run
  obtain ⟨grown, inside, fresh, -⟩ := Compiling.declareAll_ok (Compiling.entered_ready own valid) declared
  obtain ⟨further, -, lies⟩ := Compiling.finish_writes (Compiling.body_writes body) d f inside fresh
    (Compiling.bind_ok.mpr ⟨(), e, written, finished⟩)
  obtain ⟨code, -⟩ := Compiling.leave_closes (grown.trans further) left
  let k : Finished := ⟨f.fragment.code, f.constants, f.symbols.innermost.slots, f.symbols.innermost.captures.toList,
    f.symbols.globals, !f.symbols.isGlobal⟩
  have complete : k.Completes f 0 :=
    ⟨⟨List.prefix_rfl, rfl, fun _ => Nat.le_refl _, List.prefix_rfl, Nat.le_refl _⟩, .refl _ _ _⟩
  refine ⟨body, k, d.point, f.point, lies k complete, code.symm, ?_, ?_⟩
  · rw [Compiler.point, fresh]
    rfl
  · rw [code]
    rfl

theorem fed (compiled : r.Compiled scope around) : r.code.Fed 0 0 := by
  obtain ⟨body, k, p, q, lies, code, first, last⟩ := compiled.lies
  have ends : k.code.Fed q.position 0 := .ends (by rw [code, last]; simp [Code.itemAt])
  have fed := Layout.finish_feeds (Layout.body_feeds body) k p q lies ends
  rwa [code, first] at fed

end Routine.Compiled

namespace Compiler

variable {symbols : SymbolTable} {constants : Array Value} {p : Program} {c : Compiler}

theorem compile_fed (valid : symbols.Valid) (main : symbols.enclosing = [])
    (run : (resume symbols constants).compile p = .ok () c) : c.fragment.code.Fed 0 0 := by
  obtain ⟨-, -, -, lies⟩ := compile_lies (resume_ready valid constants) main run
  exact Layout.statements_feed p.statements _ _ _ lies (.ends (by simp [finished, point, Code.itemAt]))

-- All functions that a compiler knows gather what their closures capture.
theorem compile_feeds (valid : symbols.Valid) (main : symbols.enclosing = [])
    (run : (resume symbols constants).compile p = .ok () c) (before : ∀ r, .function r ∈ constants → r.From symbols.outermost) :
    ∀ r, .function r ∈ c.constants → r.code.Fed 0 0 := by
  intro r present
  obtain ⟨scope, around, compiled, -⟩ := compile_origins valid main run before r present
  exact compiled.fed

end Compiler
end StackScript
