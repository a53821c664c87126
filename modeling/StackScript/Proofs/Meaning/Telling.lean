import StackScript.Proofs.Compiler.WellFormed
import StackScript.Proofs.Meaning.Tables

-- What the layout of a part of a program does with names is what the part says.
namespace StackScript

structure Point.Reflects (p : Point) (n : Names) : Prop where
  valid : p.symbols.Valid
  symbols : p.symbols.Reflects n
  literals : p.constants = n.literals

theorem Point.Reflects.moved {p : Point} {n : Names} (reflects : p.Reflects n) (position : Nat) :
    Point.Reflects { p with position } n :=
  ⟨reflects.valid, reflects.symbols, reflects.literals⟩

theorem Point.Reflects.counted {p : Point} {n : Names} (reflects : p.Reflects n) :
    Point.Reflects { p with constants := p.constants + 1 } (n.after [.literal]) :=
  ⟨reflects.valid, reflects.symbols, congrArg (· + 1) reflects.literals⟩

theorem Point.Reflects.resolved {p : Point} {n : Names} {x : String} {symbol : Symbol} {table : SymbolTable}
    (reflects : p.Reflects n) (found : p.symbols.resolve x = .ok (symbol, table)) :
    Point.Reflects { p with symbols := table } (n.after [.mention x]) :=
  ⟨(SymbolTable.resolve_resolved reflects.valid found).valid, (SymbolTable.resolve_reflects reflects.symbols found).1,
    reflects.literals⟩

theorem Names.declare_literals (n : Names) (x : String) : (n.declare x).literals = n.literals := by
  unfold Names.declare
  split <;> rfl

theorem Point.Reflects.defined {p : Point} {n : Names} {x : String} {mutability : Mutability} {symbol : Symbol}
    {table : SymbolTable} (reflects : p.Reflects n) (defined : p.symbols.define x mutability = .ok (symbol, table)) :
    Point.Reflects { p with symbols := table } (n.declare x) :=
  ⟨SymbolTable.define_valid reflects.valid defined, (SymbolTable.define_reflects reflects.symbols defined).1,
    reflects.literals.trans (n.declare_literals x).symm⟩

theorem Point.Reflects.outside {p : Point} {n : Names} (reflects : p.Reflects n) (main : p.symbols.isGlobal = true) :
    n.scans = [] := by
  obtain ⟨scans, globals, literals⟩ := n
  obtain ⟨⟨s, rest⟩, constants, position⟩ := p
  have symbols := reflects.symbols
  cases rest with
  | cons around rest => cases main
  | nil =>
    cases scans with
    | nil => rfl
    | cons scan scans => exact symbols.elim

namespace Layout

def Tells (layout : Layout) (events : List Event) : Prop := ∀ (k : Finished) (p q : Point) (n : Names),
  layout k p q → p.Reflects n → q.Reflects (n.after events)

theorem nothing_tells : nothing.Tells [] := by
  intro k p q n lies reflects
  cases lies
  exact reflects

theorem seq_tells {first second : Layout} {events others : List Event} (one : first.Tells events)
    (two : second.Tells others) : (first.seq second).Tells (events ++ others) := by
  intro k p q n lies reflects
  obtain ⟨m, left, right⟩ := lies
  rw [Names.after_append]
  exact two k m q _ right (one k p m n left reflects)

theorem instruction_tells (i : Instruction) : (instruction i).Tells [] := by
  intro k p q n lies reflects
  obtain ⟨-, rfl⟩ := lies
  exact reflects.moved _

-- An instruction behind a part says no more than the part.
theorem then_tells {first : Layout} {events : List Event} (one : first.Tells events) (i : Instruction) :
    (first.seq (instruction i)).Tells events := by
  have both := seq_tells one (instruction_tells i)
  rwa [List.append_nil] at both

theorem constant_tells (v : Value) : (constant v).Tells [.literal] := by
  intro k p q n lies reflects
  obtain ⟨-, -, rfl⟩ := lies
  exact reflects.counted.moved _

theorem name_tells (x : String) : (name x).Tells [.mention x] := by
  intro k p q n lies reflects
  obtain ⟨symbol, table, found, -, -, rfl⟩ := lies
  exact (reflects.resolved found).moved _

theorem assign_tells (x : String) : (assign x).Tells [.mention x] := by
  intro k p q n lies reflects
  obtain ⟨symbol, table, i, found, -, -, -, rfl⟩ := lies
  exact (reflects.resolved found).moved _

theorem bind_tells (x : String) (mutability : Mutability) : (bind x mutability).Tells [.declare x] := by
  intro k p q n lies reflects
  obtain ⟨symbol, table, defined, -, -, rfl⟩ := lies
  exact (reflects.defined defined).moved _

theorem choice_tells {condition yes no : Layout} {first second third : List Event} (one : condition.Tells first)
    (two : yes.Tells second) (three : no.Tells third) :
    (choice condition yes no).Tells (first ++ (second ++ third)) := by
  intro k p q n lies reflects
  obtain ⟨a, b, c, d, tested, skip, taken, leap, other⟩ := lies
  rw [Names.after_append, Names.after_append]
  have behind := instruction_tells _ k a b _ skip (one k p a n tested reflects)
  exact three k d q _ other (instruction_tells _ k c d _ leap (two k b c _ taken behind))

theorem declares_reflects {names : List String} {t u : SymbolTable} {n : Names} {scan : Scan} {scans : List Scan}
    (shape : n.scans = scan :: scans) (reflects : t.Reflects n) (declares : t.Declares names u) :
    u.Reflects { n with scans := { scan with vars := scan.vars ++ names } :: scans } := by
  induction names generalizing t n scan with
  | nil =>
    cases declares
    rw [List.append_nil, ← shape]
    exact reflects
  | cons name rest ih =>
    obtain ⟨symbol, v, defined, others⟩ := declares
    have declared := (SymbolTable.define_reflects reflects defined).1
    have next : n.declare name = { n with scans := { scan with vars := scan.vars ++ [name] } :: scans } := by
      simp only [Names.declare, shape]
    have all := ih (by rw [next]) declared others
    rw [next, List.append_assoc] at all
    exact all

theorem leave_valid {t u : SymbolTable} {scope : Scope} (valid : t.Valid) (left : t.leave? = some (scope, u)) :
    scope.Inside u.innermost ∧ u.Valid := by
  obtain ⟨s, rest⟩ := t
  cases rest with
  | nil => cases left
  | cons around rest =>
    cases left
    exact valid

-- What a function says, and how its own names begin and end.
structure Surrounded (own : Option String) (parameters : List String) (events : List Event) (known : String → Bool)
    (p : Point) (n : Names) (first table : SymbolTable) (last : Point) (scope : Scope) : Prop where
  start : (⟨first, p.constants, 0⟩ : Point).Reflects (n.enter own parameters)
  inside : scope.Inside table.innermost
  captures : scope.captures.toList.map Symbol.name =
    Event.capturing known [] (Event.outward (own.toList ++ parameters) events)
  outer : ∀ position, (⟨table, last.constants, position⟩ : Point).Reflects
    (n.after (Event.outward (own.toList ++ parameters) events))
  slots : parameters.length ≤ scope.slots

theorem function_names {own : Option (String × Mutability)} {parameters : List String} {body : Layout}
    {events : List Event} {k : Finished} {p : Point} {n : Names} {code : Code} {first table : SymbolTable} {last : Point}
    {scope : Scope} (known : String → Bool) (tells : body.Tells events) (reflects : p.Reflects n)
    (same : ∀ x, known x = true ↔ Scan.Within x n.scans) (declares : (p.symbols.enterAs own).Declares parameters first)
    (lies : body (k.inner code scope) ⟨first, p.constants, 0⟩ last) (left : last.symbols.leave? = some (scope, table)) :
    Surrounded (own.map Prod.fst) parameters events known p n first table last scope := by
  have valid := declares.entered reflects.valid
  have entered := declares_reflects rfl (SymbolTable.enterAs_reflects own reflects.symbols) declares
  have start : (⟨first, p.constants, 0⟩ : Point).Reflects (n.enter (own.map Prod.fst) parameters) :=
    ⟨valid, entered, reflects.literals⟩
  have done := tells _ _ _ _ lies start
  obtain ⟨inside, outside⟩ := leave_valid done.valid left
  obtain ⟨scan, after, more, free⟩ := n.after_outward ⟨parameters, own.map Prod.fst, []⟩
    ((own.map Prod.fst).toList ++ parameters) (fun x => by simp [or_comm, eq_comm]) (by simp) same events
  rw [Names.enter, after] at done
  obtain ⟨inner, outer⟩ := SymbolTable.leave_reflects done.symbols left
  exact ⟨start, inside, inner.free.trans free, fun _ => ⟨outside, outer, done.literals⟩,
    Nat.le_trans more (Nat.le_of_eq inner.slots.symm)⟩

theorem function_tells (own : Option (String × Mutability)) (parameters : List String) {body : Layout}
    {events : List Event} (tells : body.Tells events) :
    (function own parameters body).Tells
      (Event.outward ((own.map Prod.fst).toList ++ parameters) events ++ [.literal]) := by
  intro k p q n lies reflects
  obtain ⟨code, first, last, scope, table, m, declares, inside, -, left, -, -, -, -, -, read, -, rfl⟩ := lies
  have surrounded := function_names (fun x => decide (Scan.Within x n.scans)) tells reflects (fun x => by simp) declares
    inside left
  obtain ⟨valid, outer, literals⟩ := surrounded.outer p.position
  obtain ⟨constants, symbols⟩ := reads_constants read
  rw [Names.after_append]
  refine ⟨?_, ?_, congrArg (· + 1) (constants.trans literals)⟩
  · rw [show m.symbols = table from symbols]
    exact valid
  · rw [show m.symbols = table from symbols]
    exact outer

theorem after_outside {n : Names} (outside : n.scans = []) (own others : List String) (x : String)
    (events : List Event) :
    (n.declare x).after (Event.outward own events) = (n.after (Event.outward others events)).declare x := by
  induction events generalizing n own others with
  | nil => rfl
  | cons event rest ih =>
    obtain ⟨scans, globals, literals⟩ := n
    cases outside
    cases event with
    | literal => exact ih (n := ⟨[], globals, literals + 1⟩) rfl own others
    | declare y => exact ih rfl (y :: own) (y :: others)
    | mention y =>
      have still := ih (n := ⟨[], globals, literals⟩) rfl own others
      rw [Event.outward, Event.outward]
      split <;> split <;> exact still

theorem early_names {n : Names} (outside : n.scans = []) (own others : List String) (name : String)
    (events : List Event) : n.after (.declare name :: (Event.outward own events ++ [.literal])) =
      n.after (Event.outward others events ++ [.literal, .declare name]) := by
  rw [Names.after, Names.after_append, Names.after_append, after_outside outside own others]
  simp only [Names.after, Names.declare]
  split <;> rfl

theorem declareFunction_tells {span place : Span} {mutability : Mutability} {name : String} {own : Option String}
    {parameters : List String} {body : List Stmt} (tells : (finish body).Tells (bodyEvents body)) :
    (statement (.declare span mutability name (.function place own parameters body))).Tells
      (Stmt.declare span mutability name (.function place own parameters body)).events := by
  intro k p q n lies reflects
  rw [statement] at lies
  rw [Stmt.events]
  split at lies
  · rename_i early
    obtain ⟨symbol, table, m, defined, made, -, -, rfl⟩ := lies
    have done := function_tells none parameters tells k _ m _ made (reflects.defined defined)
    rw [← early_names (reflects.outside (Bool.and_eq_true_iff.mp early).2)]
    exact done.moved _
  · have both := seq_tells (function_tells (some (name, mutability)) parameters tells)
      (bind_tells name mutability) k p q n lies reflects
    rwa [List.append_assoc] at both

structure StatementTells (s : Stmt) : Prop where
  here : (statement s).Tells s.events
  branch : (branch [s]).Tells s.events
  finish : (finish [s]).Tells s.events

theorem branch_tells {body : List Stmt} (each : ∀ s ∈ body, StatementTells s) :
    (branch body).Tells (bodyEvents body) := by
  induction body with
  | nil => exact instruction_tells _
  | cons s rest ih =>
    have others := ih fun t present => each t (List.mem_cons_of_mem _ present)
    have mine := each s List.mem_cons_self
    cases rest with
    | nil =>
      rw [bodyEvents, bodyEvents, List.append_nil]
      exact mine.branch
    | cons t rest =>
      rw [branch]
      · exact seq_tells mine.here others
      · intro span value equal empty
        cases empty

theorem finish_tells {body : List Stmt} (each : ∀ s ∈ body, StatementTells s) :
    (finish body).Tells (bodyEvents body) := by
  induction body with
  | nil => exact instruction_tells _
  | cons s rest ih =>
    have others := ih fun t present => each t (List.mem_cons_of_mem _ present)
    have mine := each s List.mem_cons_self
    cases rest with
    | nil =>
      rw [bodyEvents, bodyEvents, List.append_nil]
      exact mine.finish
    | cons t rest =>
      rw [finish]
      · exact seq_tells mine.here others
      · intro span value equal empty
        cases empty
      · intro span value equal empty
        cases empty

theorem tells_of_other {s : Stmt} (here : (statement s).Tells s.events) (noValue : ∀ span v, s ≠ .expression span v)
    (noReturn : ∀ span v, s ≠ .returns span v) : StatementTells s := by
  refine ⟨here, ?_, ?_⟩
  · rw [branch]
    · exact then_tells here _
    · intro span v equal
      exact absurd equal (noValue span v)
  · rw [finish]
    · exact then_tells here _
    · intro span v equal
      exact absurd equal (noValue span v)
    · intro span v equal
      exact absurd equal (noReturn span v)

theorem expressions_tells {es : List Expr} (each : ∀ e ∈ es, (expression e).Tells e.events) :
    (expressions es).Tells (listEvents es) := by
  induction es with
  | nil => exact nothing_tells
  | cons e rest ih =>
    exact seq_tells (each e List.mem_cons_self) (ih fun f present => each f (List.mem_cons_of_mem _ present))

theorem pairEvents_eq (pairs : List (Expr × Expr)) :
    pairEvents pairs = pairs.map fun p => (p.1.text, p.1.events ++ p.2.events) := by
  induction pairs with
  | nil => rfl
  | cons p rest ih => rw [pairEvents, ih]; rfl

theorem inOrder_tells {pairs : List (Expr × Expr)}
    (each : ∀ p ∈ pairs, (Compiling.pairLayout p).Tells (p.1.events ++ p.2.events)) :
    (inOrder (pairs.map fun p => (p.1.text, Compiling.pairLayout p))).Tells
      ((pairs.map fun p => (p.1.text, p.1.events ++ p.2.events)).flatMap Prod.snd) := by
  induction pairs with
  | nil => exact nothing_tells
  | cons p rest ih =>
    rw [List.map_cons, List.map_cons, List.flatMap_cons]
    exact seq_tells (each p List.mem_cons_self) (ih fun q present => each q (List.mem_cons_of_mem _ present))

mutual

theorem statement_tells : ∀ s : Stmt, StatementTells s
  | .expression span value => by
    have inner := expression_tells value
    exact ⟨then_tells inner _, inner, then_tells inner _⟩
  | .returns span value => by
    have inner := expression_tells value
    have here := then_tells inner ⟨.returnValue, []⟩
    exact ⟨here, then_tells here _, here⟩
  | .assign span name value => by
    have inner := expression_tells value
    exact tells_of_other (seq_tells inner (assign_tells name)) (by intros; simp) (by intros; simp)
  | .declare span mutability name value => by
    have bound := seq_tells (expression_tells value) (bind_tells name mutability)
    refine tells_of_other ?_ (by intros; simp) (by intros; simp)
    cases value with
    | function place own parameters body => exact declareFunction_tells (finish_tells (body_tells body))
    | _ => exact bound

theorem body_tells : ∀ body : List Stmt, ∀ s ∈ body, StatementTells s
  | [], _, present => by cases present
  | first :: rest, s, present => by
    have here := statement_tells first
    have others := body_tells rest
    rcases List.mem_cons.mp present with rfl | later
    · exact here
    · exact others s later

theorem expression_tells : ∀ e : Expr, (expression e).Tells e.events
  | .integer span n => constant_tells _
  | .float span x => constant_tells _
  | .string span s => constant_tells _
  | .boolean span true => instruction_tells _
  | .boolean span false => instruction_tells _
  | .identifier span x => name_tells x
  | .unary span operator right => by
    have inner := expression_tells right
    intro k p q n lies reflects
    obtain ⟨op, known, lies⟩ := lies
    exact then_tells inner _ k p q n lies reflects
  | .binary span operator left right => by
    have first := expression_tells left
    have second := expression_tells right
    intro k p q n lies reflects
    obtain ⟨op, known, lies⟩ := lies
    rw [Expr.events, show swapped operator = Compiling.rightFirst operator from rfl]
    split at lies
    · rename_i right
      rw [if_pos right]
      exact seq_tells second (then_tells first _) k p q n lies reflects
    · rename_i left
      rw [if_neg left]
      exact seq_tells first (then_tells second _) k p q n lies reflects
  | .conditional span condition consequence none => by
    have all := choice_tells (expression_tells condition) (branch_tells (body_tells consequence))
      (instruction_tells ⟨.pushNull, []⟩)
    rwa [List.append_nil] at all
  | .conditional span condition consequence (some alternative) =>
    choice_tells (expression_tells condition) (branch_tells (body_tells consequence))
      (branch_tells (body_tells alternative))
  | .array span elements => then_tells (expressions_tells (each_tells elements)) _
  | .hash span pairs => by
    have each := pairs_tell pairs
    have sorted := inOrder_tells fun p (present : p ∈ pairs.mergeSort Compiling.byText) =>
      each p (List.mem_mergeSort.mp present)
    rw [expression, Compiling.pairParts_eq, Compiling.sorted_map, Expr.events, pairEvents_eq, Compiling.sorted_map]
    exact then_tells sorted _
  | .index span target position => seq_tells (expression_tells target) (then_tells (expression_tells position) _)
  | .function span own parameters body => by
    have made := function_tells (own.map (·, .fixed)) parameters (finish_tells (body_tells body))
    rwa [Option.map_map, show Prod.fst ∘ (fun x : String => (x, Mutability.fixed)) = id from rfl, Option.map_id] at made
  | .call span callee arguments =>
    seq_tells (expression_tells callee) (then_tells (expressions_tells (each_tells arguments)) _)

theorem each_tells : ∀ es : List Expr, ∀ e ∈ es, (expression e).Tells e.events
  | [], _, present => by cases present
  | first :: rest, e, present => by
    have here := expression_tells first
    have others := each_tells rest
    rcases List.mem_cons.mp present with rfl | later
    · exact here
    · exact others e later

theorem pairs_tell : ∀ pairs : List (Expr × Expr), ∀ p ∈ pairs,
    (Compiling.pairLayout p).Tells (p.1.events ++ p.2.events)
  | [], _, present => by cases present
  | (key, value) :: rest, p, present => by
    have first := seq_tells (expression_tells key) (expression_tells value)
    have others := pairs_tell rest
    rcases List.mem_cons.mp present with rfl | later
    · exact first
    · exact others p later

end

theorem statements_tells (body : List Stmt) : (statements body).Tells (bodyEvents body) := by
  induction body with
  | nil => exact nothing_tells
  | cons s rest ih => exact seq_tells (statement_tells s).here ih

end Layout
end StackScript
