import StackScript.Proofs.Compiler.Overfull
import StackScript.Proofs.Scope.Standing

-- A compiler rejects a program for its names exactly if the program uses them as it may not.
namespace StackScript

def CompileError.Naming : CompileError → Prop
  | .naming .. | .assignConstant .. | .assignItself .. => True
  | .unknownOperator .. | .tooMany .. => False

def Rejection.Naming : Rejection → Prop
  | .error e => e.Naming
  | .defect _ => False

-- A compiler knows the names of its scopes, and has a code for each open function.
structure Compiler.Stands (c : Compiler) (s : Scopes) : Prop where
  symbols : c.symbols.Stands s
  depth : c.enclosing.length = s.functions.length

theorem Scopes.declare_depth (s : Scopes) (x : String) (mutability : Mutability) :
    (s.declare x mutability).functions.length = s.functions.length := by
  rw [declare]
  cases shape : s.functions with
  | nil => simp only
  | cons l rest => rfl

namespace Compiling

variable {α β : Type} {s : Scopes} {c : Compiler}

-- What comes of a step that does something with names: it succeeds only if that may be done, and is rejected for a name only
-- if it may not.
def Agrees (s : Scopes) (acts : List Act) : EStateM.Result Rejection Compiler α → Prop
  | .ok _ d => s.Correct acts ∧ d.Stands (s.afterAll acts)
  | .error r _ => r.Naming → ¬ s.Correct acts

theorem bind_agrees {x : Compiling α} {f : α → Compiling β} {first second : List Act} (one : Agrees s first (x c))
    (two : ∀ a d, x c = .ok a d → d.Stands (s.afterAll first) → Agrees (s.afterAll first) second (f a d)) :
    Agrees s (first ++ second) ((x >>= f) c) := by
  simp only [bind, EStateM.bind]
  cases run : x c with
  | error r d =>
    rw [run] at one
    exact fun naming correct => one naming (Scopes.correct_append.mp correct).1
  | ok a d =>
    rw [run] at one
    have next := two a d run one.2
    simp only
    cases rest : f a d with
    | error r e =>
      rw [rest] at next
      exact fun naming correct => next naming (Scopes.correct_append.mp correct).2
    | ok b e =>
      rw [rest] at next
      rw [Agrees, Scopes.correct_append, Scopes.afterAll_append]
      exact ⟨⟨one.1, next.1⟩, next.2⟩

-- A step that does nothing with names.
def Quiet (x : Compiling α) : Prop := ∀ c, match x c with
  | .ok _ d => d.symbols = c.symbols ∧ d.enclosing = c.enclosing
  | .error r _ => ¬ r.Naming

theorem Quiet.agrees {x : Compiling α} (quiet : Quiet x) (stands : c.Stands s) : Agrees s [] (x c) := by
  have same := quiet c
  cases run : x c with
  | error r d =>
    rw [run] at same
    exact fun naming => absurd naming same
  | ok a d =>
    rw [run] at same
    exact ⟨trivial, same.1 ▸ stands.symbols, same.2 ▸ stands.depth⟩

theorem Quiet.then_agrees {x : Compiling α} {f : α → Compiling β} {acts : List Act} (quiet : Quiet x) (stands : c.Stands s)
    (two : ∀ a d, x c = .ok a d → d.Stands s → Agrees s acts (f a d)) : Agrees s acts ((x >>= f) c) :=
  bind_agrees (quiet.agrees stands) two

theorem Agrees.then_quiet {x : Compiling α} {f : α → Compiling β} {acts : List Act} (one : Agrees s acts (x c))
    (two : ∀ a, Quiet (f a)) : Agrees s acts ((x >>= f) c) := by
  rw [← List.append_nil acts]
  exact bind_agrees one fun a _ _ stands => (two a).agrees stands

theorem quiet_bind {x : Compiling α} {f : α → Compiling β} (one : Quiet x) (two : ∀ a, Quiet (f a)) : Quiet (x >>= f) := by
  intro c
  have first := one c
  simp only [bind, EStateM.bind]
  cases run : x c with
  | error r d =>
    rw [run] at first
    exact first
  | ok a d =>
    rw [run] at first
    have second := two a d
    simp only
    cases rest : f a d with
    | error r e =>
      rw [rest] at second
      exact second
    | ok b e =>
      rw [rest] at second
      exact ⟨second.1.trans first.1, second.2.trans first.2⟩

theorem pure_quiet (a : α) : Quiet (pure a : Compiling α) := fun _ => ⟨rfl, rfl⟩

theorem get_quiet : Quiet (get : Compiling Compiler) := fun _ => ⟨rfl, rfl⟩

theorem position_quiet : Quiet position := fun _ => ⟨rfl, rfl⟩

theorem write_quiet (f : Compiler → Fragment) : Quiet (modify fun c => { c with fragment := f c } : Compiling PUnit) :=
  fun _ => ⟨rfl, rfl⟩

theorem emit_quiet (op : OpCode) (operands : List Nat) : Quiet (emit op operands) := by
  intro c
  rw [emit]
  cases Instruction.encode ⟨op, operands⟩ with
  | ok bytes => exact ⟨rfl, rfl⟩
  | error m => exact id

theorem checkLimit_quiet (value limit : Nat) (what : String) (span : Span) : Quiet (checkLimit value limit what span) := by
  rw [checkLimit]
  split
  · exact fun _ => id
  · exact pure_quiet ()

theorem patch_quiet (position target : Nat) (span : Span) : Quiet (patch position target span) := by
  refine quiet_bind (checkLimit_quiet _ _ _ _) fun _ => quiet_bind get_quiet fun c => ?_
  split
  · split
    · split
      · exact write_quiet _
      · exact fun _ => id
    · exact fun _ => id
  · exact fun _ => id

theorem addConstant_quiet (v : Value) (span : Span) : Quiet (addConstant v span) :=
  quiet_bind get_quiet fun _ => quiet_bind (checkLimit_quiet _ _ _ _) fun _ =>
    quiet_bind (fun _ => ⟨rfl, rfl⟩) fun _ => pure_quiet _

theorem emitConstant_quiet (v : Value) (span : Span) : Quiet (emitConstant v span) :=
  quiet_bind (addConstant_quiet v span) fun _ => emit_quiet _ _

theorem load_quiet (symbol : Symbol) : Quiet (load symbol) := by
  rw [load_eq]
  exact emit_quiet _ _

theorem loadAll_quiet (symbols : List Symbol) : Quiet (loadAll symbols) := by
  induction symbols with
  | nil => exact pure_quiet ()
  | cons symbol rest ih => exact quiet_bind (load_quiet symbol) fun _ => ih

theorem store_quiet (symbol : Symbol) (span : Span) : Quiet (store symbol span) := by
  rw [store]
  split
  · exact quiet_bind (checkLimit_quiet _ _ _ _) fun _ => emit_quiet _ _
  · exact quiet_bind (checkLimit_quiet _ _ _ _) fun _ => emit_quiet _ _

theorem finishBody_quiet : Quiet finishBody := by
  refine quiet_bind get_quiet fun c => ?_
  have rest : Quiet (do if !(← get).fragment.endsWith .returnValue 0 then emit .returnNull []) := by
    refine quiet_bind get_quiet fun d => ?_
    split
    · exact emit_quiet _ _
    · exact pure_quiet _
  split
  · exact quiet_bind (write_quiet _) fun _ => rest
  · exact rest

theorem madeFrom_quiet (code : Code) (scope : Scope) (parameters : Nat) (span : Span) :
    Quiet (madeFrom code scope parameters span) := by
  refine quiet_bind (loadAll_quiet _) fun _ => quiet_bind (addConstant_quiet _ _) fun _ => ?_
  split
  · exact emit_quiet _ _
  · exact emit_quiet _ _

theorem resolve_agrees (stands : c.Stands s) (x : String) (span : Span) : Agrees s [.read x] (resolve x span c) := by
  have result := SymbolTable.resolve_stands stands.symbols x
  rw [resolve]
  cases found : c.symbols.resolve x with
  | error e =>
    rw [found] at result
    intro _ correct
    have bound : (s.find? x).isSome := correct.1
    rw [result] at bound
    cases bound
  | ok pair =>
    rw [found] at result
    refine ⟨⟨?_, trivial⟩, result.2, stands.depth⟩
    rw [Scopes.Permits, result.1]
    rfl

theorem assignTo_agrees (stands : c.Stands s) (x : String) (span : Span) : Agrees s [.assign x] (assignTo x span c) := by
  have result := SymbolTable.resolve_stands stands.symbols x
  rw [assignTo]
  cases found : c.symbols.resolve x with
  | error e =>
    rw [found] at result
    have run : resolve x span c = .error (.error (.naming e span)) c := by rw [resolve, found]
    simp only [bind, EStateM.bind, run]
    intro _ correct
    have bound := correct.1
    simp [Scopes.Permits, result] at bound
  | ok pair =>
    obtain ⟨symbol, table⟩ := pair
    rw [found] at result
    obtain ⟨bound, later⟩ := result
    have run : resolve x span c = .ok symbol { c with symbols := table } := by rw [resolve, found]
    have stands : Compiler.Stands { c with symbols := table } s := ⟨later, stands.depth⟩
    simp only [bind, EStateM.bind, run]
    have allowed (op : OpCode) (permitted : s.Permits (.assign x)) :
        Agrees s [.assign x] (emit op [symbol.index] { c with symbols := table }) := by
      have written := (emit_quiet op [symbol.index]).agrees stands
      cases run : emit op [symbol.index] { c with symbols := table } with
      | ok a d =>
        rw [run] at written
        exact ⟨⟨permitted, trivial⟩, written.2⟩
      | error r d =>
        rw [run] at written
        exact fun naming => absurd trivial (written naming)
    rw [Symbol.binding] at bound
    cases mutability : symbol.mutability <;> cases storage : symbol.storage <;> rw [storage] at bound
    case assignable.global => exact allowed _ (.inr (mutability ▸ bound))
    case assignable.frame => exact allowed _ (.inl (mutability ▸ bound))
    all_goals
      intro _ correct
      have permitted := correct.1
      simp [Scopes.Permits, bound, mutability] at permitted

theorem define_agrees (stands : c.Stands s) (x : String) (mutability : Mutability) (span : Span) :
    Agrees s [.declare x mutability] (define x mutability span c) := by
  have result := SymbolTable.define_stands stands.symbols x mutability
  rw [define]
  cases defined : c.symbols.define x mutability with
  | error e =>
    rw [defined] at result
    exact fun _ correct => correct.1 result
  | ok pair =>
    rw [defined] at result
    exact ⟨⟨result.1, trivial⟩, result.2, stands.depth.trans (s.declare_depth x mutability).symm⟩

theorem leave_agrees (stands : c.Stands s) (nested : s.functions ≠ []) : Agrees s [.leave] (leave c) := by
  have nonempty : c.enclosing ≠ [] := by
    intro outermost
    have depth := stands.depth
    rw [outermost] at depth
    exact nested (List.length_eq_zero_iff.mp depth.symm)
  obtain ⟨outer, rest, fragments⟩ := List.exists_cons_of_ne_nil nonempty
  cases left : c.symbols.leave? with
  | none =>
    have outermost := stands.symbols.nested
    rw [SymbolTable.leave?] at left
    split at left
    · rename_i main
      rw [SymbolTable.isGlobal, main] at outermost
      exact absurd (List.isEmpty_iff.mp outermost.symm) nested
    · cases left
  | some pair =>
    obtain ⟨scope, table⟩ := pair
    rw [leave, left, fragments]
    refine ⟨⟨trivial, trivial⟩, SymbolTable.leave_stands stands.symbols left, ?_⟩
    have depth := stands.depth
    rw [fragments, List.length_cons] at depth
    show rest.length = s.functions.tail.length
    rw [List.length_tail, ← depth, Nat.add_sub_cancel]

-- A step does with names what a walk does, and ends in the function it began in.
structure Judges (nested : Bool) (acts : List Act) (x : Compiling α) : Prop where
  level : ∀ s : Scopes, (s.afterAll acts).functions.length = s.functions.length
  agrees : ∀ (c : Compiler) (s : Scopes), c.Stands s → s.functions.isEmpty = !nested → Agrees s acts (x c)

theorem isEmpty_of_length {xs ys : List Level} (same : ys.length = xs.length) : ys.isEmpty = xs.isEmpty := by
  cases xs <;> cases ys <;> first | rfl | cases same

variable {nested : Bool} {acts first second : List Act} {x : Compiling α} {f : α → Compiling β}

theorem Quiet.judges (quiet : Quiet x) : Judges nested [] x := ⟨fun _ => rfl, fun _ _ stands _ => quiet.agrees stands⟩

instance : Nonempty Symbol := ⟨⟨"", 0, .fixed, .native⟩⟩

theorem seq_judges [Nonempty α] (one : Judges nested first x) (two : ∀ a, Judges nested second (f a)) :
    Judges nested (first ++ second) (x >>= f) := by
  constructor
  · intro s
    rw [Scopes.afterAll_append, (two (Classical.arbitrary α)).level, one.level]
  · intro c s stands inside
    refine bind_agrees (one.agrees c s stands inside) fun a d _ later => (two a).agrees d _ later ?_
    rw [isEmpty_of_length (one.level s)]
    exact inside

theorem judges_first [Nonempty α] (quiet : Quiet x) (two : ∀ a, Judges nested acts (f a)) : Judges nested acts (x >>= f) :=
  seq_judges quiet.judges two

theorem judges_last [Nonempty α] (one : Judges nested acts x) (quiet : ∀ a, Quiet (f a)) : Judges nested acts (x >>= f) := by
  rw [← List.append_nil acts]
  exact seq_judges one fun a => (quiet a).judges

theorem resolve_judges (x : String) (span : Span) : Judges nested [.read x] (resolve x span) :=
  ⟨fun _ => rfl, fun _ _ stands _ => resolve_agrees stands x span⟩

theorem assignTo_judges (x : String) (span : Span) : Judges nested [.assign x] (assignTo x span) :=
  ⟨fun _ => rfl, fun _ _ stands _ => assignTo_agrees stands x span⟩

theorem define_judges (x : String) (mutability : Mutability) (span : Span) :
    Judges nested [.declare x mutability] (define x mutability span) :=
  ⟨fun s => s.declare_depth x mutability, fun _ _ stands _ => define_agrees stands x mutability span⟩

theorem bind_judges (x : String) (mutability : Mutability) (span : Span) :
    Judges nested [.declare x mutability] (do store (← define x mutability span) span) :=
  judges_last (define_judges x mutability span) fun symbol => store_quiet symbol span

theorem declareAll_judges (span : Span) (names : List String) :
    Judges nested (names.map (Act.declare · .fixed)) (declareAll span names) := by
  induction names with
  | nil => exact (pure_quiet ()).judges
  | cons name rest ih => exact seq_judges (define_judges name .fixed span) fun _ => ih

theorem branch_judges {body : Compiling Unit} (judges : Judges nested acts body) : Judges nested acts (branch body) := by
  refine judges_first position_quiet fun start => judges_last judges fun _ => quiet_bind get_quiet fun c => ?_
  split
  · exact write_quiet _
  · exact emit_quiet _ _

theorem conditional_judges (span : Span) {condition yes no : Compiling Unit} {tests takes skips : List Act}
    (one : Judges nested tests condition) (two : Judges nested takes yes) (three : Judges nested skips no) :
    Judges nested (tests ++ (takes ++ skips)) (conditional span condition yes no) := by
  refine seq_judges one fun _ => judges_first position_quiet fun skip => judges_first (emit_quiet _ _) fun _ => ?_
  refine seq_judges (branch_judges two) fun _ => judges_first position_quiet fun leap => ?_
  refine judges_first (emit_quiet _ _) fun _ => judges_first position_quiet fun target => judges_first (patch_quiet _ _ _) fun _ => ?_
  exact judges_last three fun _ => quiet_bind position_quiet fun target => patch_quiet _ _ _

theorem Agrees.entered {own : Option String} {acts : List Act} {result : EStateM.Result Rejection Compiler α}
    (agrees : Agrees (s.after (.enter own)) acts result) : Agrees s (.enter own :: acts) result := by
  cases result with
  | ok a d => exact ⟨⟨trivial, agrees.1⟩, agrees.2⟩
  | error r d => exact fun naming correct => agrees naming correct.2

theorem functionSteps_agrees {parameters : List String} {span : Span} {body : Compiling Unit} {acts : List Act}
    (judges : Judges true acts body) (stands : c.Stands s) (inside : s.functions.isEmpty = false) :
    Agrees s (parameters.map (Act.declare · .fixed) ++ (acts ++ [.leave])) (functionSteps parameters span body c) := by
  have declares : Judges true _ _ := declareAll_judges span parameters
  refine bind_agrees (declares.agrees c s stands inside) fun _ d _ stands => ?_
  have inside := (isEmpty_of_length (declares.level s)).trans inside
  refine bind_agrees (judges.agrees d _ stands inside) fun _ e _ stands => ?_
  have inside := (isEmpty_of_length (judges.level _)).trans inside
  refine finishBody_quiet.then_agrees stands fun _ f _ stands => ?_
  refine (leave_agrees stands (List.isEmpty_eq_false_iff.mp inside)).then_quiet fun pair => ?_
  exact quiet_bind (checkLimit_quiet _ _ _ _) fun _ => quiet_bind (checkLimit_quiet _ _ _ _) fun _ => madeFrom_quiet _ _ _ _

theorem makeFunction_judges (own : Option (String × Mutability)) (parameters : List String) (span : Span)
    {body : Compiling Unit} {acts : List Act} (judges : Judges true acts body) :
    Judges nested (functionActs (own.map Prod.fst) parameters acts) (makeFunction own parameters span body) := by
  constructor
  · intro s
    have declares : Judges true _ _ := declareAll_judges span parameters
    have level := (judges.level _).trans (declares.level (s.after (.enter (own.map Prod.fst))))
    show (Scopes.afterAll _ (_ ++ (acts ++ [.leave]))).functions.length = _
    rw [Scopes.afterAll_append, Scopes.afterAll_append]
    show (List.tail _).length = _
    rw [List.length_tail, level]
    rfl
  · intro c s stands _
    refine (checkLimit_quiet _ _ _ _).then_agrees stands fun _ d _ stands => ?_
    have entered : (entered own d).Stands (s.after (.enter (own.map Prod.fst))) :=
      ⟨SymbolTable.enterAs_stands own stands.symbols, congrArg (· + 1) stands.depth⟩
    have whole : Agrees s _ (functionSteps parameters span body _) := (functionSteps_agrees judges entered rfl).entered
    cases own with
    | none => exact whole
    | some pair => exact whole

theorem statements_judges {body : List Stmt} (each : ∀ t ∈ body, Judges nested (t.acts nested) (statement t)) :
    Judges nested (bodyActs nested body) (statements body) := by
  induction body with
  | nil => exact (pure_quiet ()).judges
  | cons t rest ih =>
    rw [bodyActs, statements]
    exact seq_judges (each t List.mem_cons_self) fun _ => ih fun u present => each u (List.mem_cons_of_mem _ present)

theorem expressions_judges {es : List Expr} (each : ∀ e ∈ es, Judges nested (e.acts nested) (expression e)) :
    Judges nested (listActs nested es) (expressions es) := by
  induction es with
  | nil => exact (pure_quiet ()).judges
  | cons e rest ih =>
    rw [listActs, expressions]
    exact seq_judges (each e List.mem_cons_self) fun _ => ih fun g present => each g (List.mem_cons_of_mem _ present)

-- An unknown operator is reported before the names in its operands.
theorem unknown_judges {y : Compiling β} {operator : String} {span : Span} (judges : Judges nested acts y) :
    Judges nested acts (refuse (.unknownOperator operator span) : Compiling α) :=
  ⟨judges.level, fun _ _ _ _ => False.elim⟩

def pairJudged (nested : Bool) (p : Expr × Expr) : List Act := p.1.acts nested ++ p.2.acts nested

theorem pairActs_eq (pairs : List (Expr × Expr)) :
    pairActs nested pairs = pairs.map fun p => (p.1.text, pairJudged nested p) := by
  induction pairs with
  | nil => rfl
  | cons p rest ih => rw [pairActs, ih]; rfl

theorem inOrder_judges {pairs : List (Expr × Expr)} (each : ∀ p ∈ pairs, Judges nested (pairJudged nested p) (pair p)) :
    Judges nested ((pairs.map fun p => (p.1.text, pairJudged nested p)).flatMap Prod.snd)
      (inOrder (pairs.map fun p => (p.1.text, pair p))) := by
  induction pairs with
  | nil => exact (pure_quiet ()).judges
  | cons p rest ih =>
    exact seq_judges (each p List.mem_cons_self) fun _ => ih fun q present => each q (List.mem_cons_of_mem _ present)

theorem declareFunction_judges {span place : Span} {mutability : Mutability} {name : String} {own : Option String}
    {parameters : List String} {body : List Stmt} (judges : Judges true (bodyActs true body) (statements body)) :
    Judges nested ((Stmt.declare span mutability name (.function place own parameters body)).acts nested)
      (statement (.declare span mutability name (.function place own parameters body))) := by
  have early : Judges nested (.declare name mutability :: functionActs none parameters (bodyActs true body)) (do
      let symbol ← define name mutability span
      makeFunction none parameters place (statements body)
      store symbol span) :=
    seq_judges (define_judges name mutability span) fun symbol =>
      judges_last (makeFunction_judges none parameters place judges) fun _ => store_quiet symbol span
  have late : Judges nested (functionActs (some name) parameters (bodyActs true body) ++ [.declare name mutability]) (do
      makeFunction (some (name, mutability)) parameters place (statements body)
      store (← define name mutability span) span) :=
    seq_judges (makeFunction_judges (some (name, mutability)) parameters place judges) fun _ =>
      bind_judges name mutability span
  rw [Stmt.acts, statement]
  constructor
  · intro s
    split
    · exact early.level s
    · exact late.level s
  · intro c s stands inside
    have outermost : c.symbols.isGlobal = !nested := stands.symbols.nested.trans inside
    refine get_quiet.then_agrees stands fun a d run _ => ?_
    obtain ⟨rfl, rfl⟩ := get_ok.mp run
    rw [outermost]
    cases mutability <;> cases nested <;> first | exact early.agrees _ s stands inside | exact late.agrees _ s stands inside

mutual

theorem statement_judges (nested : Bool) : ∀ t : Stmt, Judges nested (t.acts nested) (statement t)
  | .expression span value => judges_last (expression_judges nested value) fun _ => emit_quiet _ _
  | .returns span value => judges_last (expression_judges nested value) fun _ => emit_quiet _ _
  | .assign span name value => seq_judges (expression_judges nested value) fun _ => assignTo_judges name span
  | .declare span mutability name value => by
    have bound := seq_judges (expression_judges nested value) fun _ => bind_judges name mutability span
    cases value with
    | function place own parameters body =>
      exact declareFunction_judges (statements_judges (body_judges true body))
    | _ => exact bound

theorem body_judges (nested : Bool) : ∀ body : List Stmt, ∀ t ∈ body, Judges nested (t.acts nested) (statement t)
  | [], _, present => by cases present
  | first :: rest, t, present => by
    have here := statement_judges nested first
    have others := body_judges nested rest
    rcases List.mem_cons.mp present with rfl | later
    · exact here
    · exact others t later

theorem expression_judges (nested : Bool) : ∀ e : Expr, Judges nested (e.acts nested) (expression e)
  | .integer span n => (emitConstant_quiet _ _).judges
  | .float span x => (emitConstant_quiet _ _).judges
  | .string span s => (emitConstant_quiet _ _).judges
  | .boolean span true => (emit_quiet _ _).judges
  | .boolean span false => (emit_quiet _ _).judges
  | .identifier span name => judges_last (resolve_judges name span) load_quiet
  | .unary span operator right => by
    have inner := expression_judges nested right
    rw [expression, Expr.acts]
    cases unaryOpCode? operator with
    | none => exact unknown_judges inner
    | some op => exact judges_last inner fun _ => emit_quiet _ _
  | .binary span operator left right => by
    have first := expression_judges nested left
    have second := expression_judges nested right
    have ordered := seq_judges first fun _ => second
    have backward := seq_judges second fun _ => first
    have same : swapped operator = rightFirst operator := rfl
    rw [expression, Expr.acts, same]
    cases binaryOpCode? operator with
    | none =>
      split
      · exact unknown_judges backward
      · exact unknown_judges ordered
    | some op =>
      have last := emit_quiet op []
      simp only
      split
      · exact seq_judges second fun _ => judges_last first fun _ => last
      · exact seq_judges first fun _ => judges_last second fun _ => last
  | .conditional span condition consequence none => by
    have both := conditional_judges span (expression_judges nested condition)
      (statements_judges (body_judges nested consequence)) (emit_quiet .pushNull []).judges
    rw [List.append_nil] at both
    exact both
  | .conditional span condition consequence (some alternative) =>
    conditional_judges span (expression_judges nested condition) (statements_judges (body_judges nested consequence))
      (branch_judges (statements_judges (body_judges nested alternative)))
  | .array span elements =>
    judges_first (checkLimit_quiet _ _ _ _) fun _ =>
      judges_last (expressions_judges (each_judges nested elements)) fun _ => emit_quiet _ _
  | .hash span pairs => by
    have each := pairs_judge nested pairs
    rw [expression, Expr.acts, pairSteps_eq, pairActs_eq, sorted_map, sorted_map]
    refine judges_first (checkLimit_quiet _ _ _ _) fun _ => judges_last (inOrder_judges ?_) fun _ => emit_quiet _ _
    exact fun p present => each p (List.mem_mergeSort.mp present)
  | .index span target position =>
    seq_judges (expression_judges nested target) fun _ =>
      judges_last (expression_judges nested position) fun _ => emit_quiet _ _
  | .function span own parameters body => by
    have made : Judges nested _ _ := makeFunction_judges (own.map (·, .fixed)) parameters span
      (statements_judges (body_judges true body))
    rw [Option.map_map] at made
    cases own <;> exact made
  | .call span callee arguments =>
    judges_first (checkLimit_quiet _ _ _ _) fun _ => seq_judges (expression_judges nested callee) fun _ =>
      judges_last (expressions_judges (each_judges nested arguments)) fun _ => emit_quiet _ _

theorem each_judges (nested : Bool) : ∀ es : List Expr, ∀ e ∈ es, Judges nested (e.acts nested) (expression e)
  | [], _, present => by cases present
  | first :: rest, e, present => by
    have here := expression_judges nested first
    have others := each_judges nested rest
    rcases List.mem_cons.mp present with rfl | later
    · exact here
    · exact others e later

theorem pairs_judge (nested : Bool) : ∀ pairs : List (Expr × Expr), ∀ p ∈ pairs, Judges nested (pairJudged nested p) (pair p)
  | [], _, present => by cases present
  | (key, value) :: rest, p, present => by
    have first := seq_judges (expression_judges nested key) fun _ => expression_judges nested value
    have others := pairs_judge nested rest
    rcases List.mem_cons.mp present with rfl | later
    · exact first
    · exact others p later

end

end Compiling

theorem Compiler.new_stands : Compiler.new.Stands .initial := by
  obtain ⟨valid, main⟩ := nativeNames_valid
  refine ⟨⟨valid, ?_⟩, rfl⟩
  show SymbolTable.StandsIn [] nativeNames.innermost nativeNames.enclosing []
  rw [main]
  intro x
  simp only [nativeNames, Builtin.all, List.foldl, SymbolTable.defineNative, SymbolTable.empty, List.reverse_nil,
    Scope.bind_symbols, Scope.empty_symbols, Scopes.outside?, List.lookup_nil]
  by_cases native : ∃ b : Builtin, b.name = x
  · obtain ⟨b, rfl⟩ := native
    cases b <;> decide
  · have other (b : Builtin) : b.name ≠ x := fun same => native ⟨b, same⟩
    simp [other, fun b => (other b).symm]

-- Unless it stops at a limit or at an unknown operator, a compiler accepts the programs that use names as they may.
theorem compile_accepts_correct (p : Program)
    (few : ∀ what limit span c, Compiler.new.compile p ≠ .error (.error (.tooMany what limit span)) c)
    (known : ∀ operator span c, Compiler.new.compile p ≠ .error (.error (.unknownOperator operator span)) c)
    (fits : ∀ misfit c, Compiler.new.compile p ≠ .error (.defect (.misfit misfit)) c) :
    p.Compiles ↔ Scopes.initial.Correct p.acts := by
  have judges := Compiling.statements_judges (Compiling.body_judges false p.statements)
  have agrees : Compiling.Agrees .initial p.acts (Compiler.new.compile p) := judges.agrees _ _ Compiler.new_stands rfl
  cases run : Compiler.new.compile p with
  | ok a c =>
    rw [run] at agrees
    exact iff_of_true ⟨c, run⟩ agrees.1
  | error r c =>
    rw [run] at agrees
    refine iff_of_false (fun compiles => ?_) (agrees ?_)
    · obtain ⟨d, accepted⟩ := compiles
      rw [run] at accepted
      cases accepted
    cases r with
    | error e =>
      cases e with
      | tooMany what limit span => exact absurd run (few what limit span c)
      | unknownOperator operator span => exact absurd run (known operator span c)
      | _ => trivial
    | defect d =>
      cases d with
      | misfit m => exact absurd run (fits m c)
      | noJump position =>
        have panics := Compiling.statements_keeps p.statements
        rw [Compiler.compile] at run
        rw [Compiling.Keeps, run] at panics
        rcases panics with ⟨n, wrong, -⟩ | ⟨wrong | wrong, -⟩ <;> cases wrong

-- let hide = fn(n) { fn() { fn() { n }; var n = 1; n = 2; } };
def Program.hiding : Program :=
  ⟨[.declare .unknown .fixed "hide" (.function .unknown (some "hide") ["n"]
    [.expression .unknown (.function .unknown none []
      [.expression .unknown (.function .unknown none [] [.expression .unknown (.identifier .unknown "n")]),
        .declare .unknown .assignable "n" (.integer .unknown 1), .assign .unknown "n" (.integer .unknown 2)])])], none⟩

-- A name may be declared where it has been captured before.
theorem compile_accepts_correct_hiding : Program.hiding.Compiles ∧ Scopes.initial.Correct Program.hiding.acts := by
  obtain ⟨d, run⟩ : Program.hiding.Compiles := by decide +kernel
  have accepted (r : Rejection) (c : Compiler) : Compiler.new.compile .hiding ≠ .error r c := by
    rw [run]
    simp
  exact ⟨⟨d, run⟩, (compile_accepts_correct .hiding (fun _ _ _ => accepted _) (fun _ _ => accepted _)
    (fun _ => accepted _)).mp ⟨d, run⟩⟩

end StackScript
