import StackScript.Proofs.Meaning.Expressions

-- The code of each kind of statement does what the statement does, and so does the code of a function or a program.
namespace StackScript

namespace Activation

-- The code of statements leaves nothing behind on the stack.
def Performs (a : Activation) (layout : Layout) (events : List Event) (step : Doing Unit) : Prop :=
  ∀ p q n s operands m, layout a.finished p q → a.Holds p n s operands m →
    Follows m (step s) (fun _ t o => a.Holds q (n.after events) t operands o) a.Returning

variable {a : Activation} {first second : Layout} {events others : List Event} {x y : Doing Datum} {action : Doing Unit}

theorem drop_performs (one : a.Computes first events x) :
    a.Performs (first.seq (Layout.instruction ⟨.pop, []⟩)) events
      (do let d ← x; modify fun s => { s with world := { s.world with last := some d } }) := by
  intro p q n s operands m lies holds
  obtain ⟨e, left, item, rfl⟩ := lies
  refine (one p e n s operands m left holds).bind fun d t o _ arrived => ?_
  exact arrived.1.leads_drop item rfl (arrived.1.reflects.moved _)

-- An early return leaves whatever lies on the stack.
theorem return_follows {α : Type} {p q : Point} {n : Names} {s : Situation} {operands : List Value} {m : Machine}
    (one : a.Computes first events x) (lies : (first.seq (Layout.instruction ⟨.returnValue, []⟩)) a.finished p q)
    (holds : a.Holds p n s operands m) (goal : α → Situation → Machine → Prop) :
    Follows m ((do throw (.returned (← x)) : Doing α) s) goal a.Returning := by
  obtain ⟨e, left, item, -⟩ := lies
  refine (one p e n s operands m left holds).bind fun d t o _ arrived => ?_
  exact .here (arrived.1.returns_value arrived.2 item)

theorem assign_performs (one : a.Computes first events x) (name : String) :
    a.Performs (first.seq (Layout.assign name)) (events ++ [.mention name])
      (do let d ← x; modify fun s => s.assign name d) := by
  intro p q n s operands m lies holds
  obtain ⟨e, left, symbol, table, i, found, assigning, within, item, rfl⟩ := lies
  rw [Names.after_append]
  refine (one p e n s operands m left holds).bind fun d t o _ arrived => ?_
  obtain ⟨held, sound⟩ := arrived
  obtain ⟨-, -, place⟩ := SymbolTable.resolve_reflects held.reflects.symbols found
  have resolved := held.reflects.resolved found
  exact (held.skip resolved rfl).leads_write sound item (Symbol.assigning_kept assigning) (.inr assigning) rfl
    (resolved.moved _) within place

theorem bind_performs (one : a.Computes first events x) (name : String) (mutability : Mutability) :
    a.Performs (first.seq (Layout.bind name mutability)) (events ++ [.declare name])
      (do let d ← x; modify fun s => s.declare name d) := by
  intro p q n s operands m lies holds
  obtain ⟨e, left, symbol, table, defined, within, item, rfl⟩ := lies
  rw [Names.after_append]
  refine (one p e n s operands m left holds).bind fun d t o _ arrived => ?_
  obtain ⟨held, sound⟩ := arrived
  obtain ⟨-, -, place, -⟩ := SymbolTable.define_reflects held.reflects.symbols defined
  have declared : Point.Reflects { e with symbols := table } ((n.after events).after [.declare name]) :=
    held.reflects.defined defined
  exact (held.skip declared rfl).leads_write sound item (SymbolTable.define_kept defined) (.inl rfl) rfl
    (declared.moved _) within place

-- A name that is declared outside all functions before its function is made, keeps its place while that is done.
theorem place_outside {n : Names} (outside : n.scans = []) (own : List String) (events : List Event) (x : String) :
    (n.after (Event.outward own events ++ [.literal])).place? x = n.place? x := by
  rw [Names.after_append]
  induction events generalizing n own with
  | nil => rfl
  | cons event rest ih =>
    obtain ⟨scans, globals, literals⟩ := n
    cases outside
    cases event with
    | literal => exact ih (n := ⟨[], globals, literals + 1⟩) rfl own
    | declare y => exact ih rfl (y :: own)
    | mention y =>
      rw [Event.outward]
      split
      · exact ih rfl own
      · exact ih (n := ⟨[], globals, literals⟩) rfl own

theorem early_follows {make : Doing Datum} {own : List String} {inner : List Event} {p q : Point} {n : Names}
    {s : Situation} {operands : List Value} {m : Machine} {name : String} {mutability : Mutability}
    (one : a.Computes first (Event.outward own inner ++ [.literal]) make)
    (lies : Layout.bindEarly name mutability first a.finished p q) (holds : a.Holds p n s operands m)
    (outside : n.scans = []) :
    Follows m ((do
        modify fun s => s.introduce name
        let d ← make
        modify fun s => s.assign name d : Doing Unit) s)
      (fun _ t o => a.Holds q (n.after (.declare name :: (Event.outward own inner ++ [.literal]))) t operands o)
      a.Returning := by
  obtain ⟨symbol, table, e, defined, value, within, item, rfl⟩ := lies
  obtain ⟨-, -, place, -⟩ := SymbolTable.define_reflects holds.reflects.symbols defined
  have declared : Point.Reflects { p with symbols := table } (n.after [.declare name]) := holds.reflects.defined defined
  have held := holds.skip declared rfl
  refine (one _ e _ _ operands m value held).bind (s := s.introduce name) fun d t o _ arrived => ?_
  obtain ⟨held, sound⟩ := arrived
  have still : (n.declare name).scans = [] := by rw [Names.declare, outside]
  exact held.leads_write sound item (SymbolTable.define_kept defined) (.inl rfl) rfl (held.reflects.moved _) within
    ((place_outside still own inner name).trans place)

theorem Holds.nested {p : Point} {n : Names} {s : Situation} {operands : List Value} {m : Machine}
    (holds : a.Holds p n s operands m) : p.symbols.isGlobal = !s.env.nested := by
  have inside := holds.agrees.inside
  have symbols := holds.reflects.symbols
  obtain ⟨scans, globals, literals⟩ := n
  obtain ⟨⟨t, rest⟩, constants, position⟩ := p
  cases rest with
  | nil =>
    cases scans with
    | cons scan scans => exact symbols.elim
    | nil => rw [inside.1]; rfl
  | cons around rest =>
    cases scans with
    | nil => exact symbols.elim
    | cons scan scans => rw [inside.1]; rfl

theorem declareFunction_performs {label : Nat → Routine} {call : Datum → List Datum → Doing Datum}
    (labels : a.Labelled label) (span place : Span) (mutability : Mutability) (name : String) (own : Option String) (parameters : List String)
    (body : List Stmt) :
    a.Performs (Layout.statement (.declare span mutability name (.function place own parameters body)))
      (Stmt.declare span mutability name (.function place own parameters body)).events
      (Doing.statement label call (.declare span mutability name (.function place own parameters body))) := by
  intro p q n s operands m lies holds
  rw [Layout.statement] at lies
  rw [Stmt.events]
  by_cases early : (mutability = .assignable && !s.env.nested) = true
  · rw [holds.nested, if_pos early] at lies
    have outside : n.scans = [] := by
      apply holds.reflects.outside
      rw [holds.nested]
      exact (Bool.and_eq_true_iff.mp early).2
    have run : Doing.statement label call (.declare span mutability name (.function place own parameters body)) s =
        (do
          modify fun s => s.introduce name
          let d ← Doing.make label none parameters body
          modify fun s => s.assign name d : Doing Unit) s := by
      rw [Doing.statement]
      simp only [bind, EStateM.bind, get_run, early, if_true]
    rw [run, ← Layout.early_names outside]
    exact early_follows (make_computes labels none parameters body) lies holds outside
  · rw [holds.nested, if_neg early] at lies
    have run : Doing.statement label call (.declare span mutability name (.function place own parameters body)) s =
        (do
          let d ← Doing.make label (some name) parameters body
          modify fun s => s.declare name d : Doing Unit) s := by
      rw [Doing.statement]
      simp only [bind, EStateM.bind, get_run, early, Bool.false_eq_true, if_false]
    have both := bind_performs (make_computes labels (some (name, mutability)) parameters body) name mutability p q n s
      operands m lies holds
    rw [List.append_assoc] at both
    rw [run]
    exact both

structure StatementRuns (a : Activation) (label : Nat → Routine) (call : Datum → List Datum → Doing Datum) (s : Stmt) :
    Prop where
  here : a.Performs (Layout.statement s) s.events (Doing.statement label call s)
  branch : a.Computes (Layout.branch [s]) s.events (Doing.block label call [s])
  finish : a.Finishes (Layout.finish [s]) (Doing.block label call [s])

variable {label : Nat → Routine} {call : Datum → List Datum → Doing Datum}

theorem expression_runs {value : Expr} (span : Span)
    (one : a.Computes (Layout.expression value) value.events (Doing.expression label call value)) :
    a.StatementRuns label call (.expression span value) := by
  refine ⟨drop_performs one, one, ?_⟩
  intro p q n s m lies holds
  obtain ⟨e, left, item, -⟩ := lies
  refine (one p e n s [] m left holds).mono fun d t o _ arrived => ?_
  exact arrived.1.returns_value arrived.2 item

theorem return_runs {value : Expr} (span : Span)
    (one : a.Computes (Layout.expression value) value.events (Doing.expression label call value)) :
    a.StatementRuns label call (.returns span value) := by
  refine ⟨fun p q n s operands m lies holds => ?_, fun p q n s operands m lies holds => ?_,
    fun p q n s m lies holds => ?_⟩
  · exact return_follows one lies holds _
  · obtain ⟨e, left, -⟩ := lies
    exact (return_follows one left holds fun _ _ _ => False).bind fun _ _ _ _ never => never.elim
  · exact (return_follows one lies holds fun _ _ _ => False).bind fun _ _ _ _ never => never.elim

theorem other_runs {s : Stmt} (here : a.Performs (Layout.statement s) s.events (Doing.statement label call s))
    (noValue : ∀ span v, s ≠ .expression span v) (noReturn : ∀ span v, s ≠ .returns span v) :
    a.StatementRuns label call s := by
  have block : Doing.block label call [s] = (do Doing.statement label call s; Doing.block label call []) := by
    cases s with
    | expression span v => exact absurd rfl (noValue span v)
    | _ => rfl
  refine ⟨here, fun p q n t operands m lies holds => ?_, fun p q n t m lies holds => ?_⟩
  · rw [Layout.branch] at lies
    · obtain ⟨e, left, right⟩ := lies
      rw [block]
      refine (here p e n t operands m left holds).bind fun _ u o _ held => ?_
      exact push_computes (.simple rfl rfl) rfl e q _ u operands o right held
    · intro span v equal
      exact absurd equal (noValue span v)
  · rw [Layout.finish] at lies
    · obtain ⟨e, left, item, -⟩ := lies
      rw [block]
      refine (here p e n t [] m left holds).bind fun _ u o _ held => ?_
      exact .here (held.returns_null item)
    · intro span v equal
      exact absurd equal (noValue span v)
    · intro span v equal
      exact absurd equal (noReturn span v)

theorem statements_perform {body : List Stmt} (each : ∀ s ∈ body, a.StatementRuns label call s) :
    a.Performs (Layout.statements body) (bodyEvents body) (Doing.statements label call body) := by
  induction body with
  | nil =>
    intro p q n s operands m lies holds
    cases lies
    exact .here holds
  | cons first rest ih =>
    intro p q n s operands m lies holds
    obtain ⟨e, left, right⟩ := lies
    have others := ih fun t present => each t (List.mem_cons_of_mem _ present)
    rw [bodyEvents, Names.after_append]
    refine ((each first List.mem_cons_self).here p e n s operands m left holds).bind fun _ t o _ held => ?_
    exact others e q _ t operands o right held

theorem block_computes {body : List Stmt} (each : ∀ s ∈ body, a.StatementRuns label call s) :
    a.Computes (Layout.branch body) (bodyEvents body) (Doing.block label call body) := by
  induction body with
  | nil => exact push_computes (.simple rfl rfl) rfl
  | cons first rest ih =>
    have others := ih fun t present => each t (List.mem_cons_of_mem _ present)
    have mine := each first List.mem_cons_self
    cases rest with
    | nil =>
      rw [bodyEvents, bodyEvents, List.append_nil]
      exact mine.branch
    | cons second rest =>
      intro p q n s operands m lies holds
      rw [Layout.branch] at lies
      · obtain ⟨e, left, right⟩ := lies
        rw [bodyEvents, Names.after_append, Doing.block]
        · refine (mine.here p e n s operands m left holds).bind fun _ t o _ held => ?_
          exact others e q _ t operands o right held
        · intro span value equal empty
          cases empty
      · intro span value equal empty
        cases empty

theorem block_finishes {body : List Stmt} (each : ∀ s ∈ body, a.StatementRuns label call s) :
    a.Finishes (Layout.finish body) (Doing.block label call body) := by
  induction body with
  | nil =>
    intro p q n s m lies holds
    exact .here (holds.returns_null lies.1)
  | cons first rest ih =>
    have others := ih fun t present => each t (List.mem_cons_of_mem _ present)
    have mine := each first List.mem_cons_self
    cases rest with
    | nil => exact mine.finish
    | cons second rest =>
      intro p q n s m lies holds
      rw [Layout.finish] at lies
      · obtain ⟨e, left, right⟩ := lies
        rw [Doing.block]
        · refine (mine.here p e n s [] m left holds).bind fun _ t o _ held => ?_
          exact others e q _ t o right held
        · intro span value equal empty
          cases empty
      · intro span value equal empty
        cases empty
      · intro span value equal empty
        cases empty

theorem all_compute {es : List Expr}
    (each : ∀ e ∈ es, a.Computes (Layout.expression e) e.events (Doing.expression label call e)) :
    a.ComputesAll (Layout.expressions es) (listEvents es) es.length (Doing.expressions label call es) := by
  induction es with
  | nil => exact none_computes
  | cons e rest ih =>
    exact more_computes (each e List.mem_cons_self) (ih fun f present => each f (List.mem_cons_of_mem _ present))

theorem pairSteps_eq (pairs : List (Expr × Expr)) : Doing.pairSteps label call pairs =
    pairs.map fun pair => (pair.1.text,
      do return (← Doing.expression label call pair.1, ← Doing.expression label call pair.2)) := by
  induction pairs with
  | nil => rfl
  | cons pair rest ih => rw [Doing.pairSteps, ih]; rfl

mutual

theorem statement_runs (labels : a.Labelled label) (calls : a.Calls call) :
    ∀ s : Stmt, a.StatementRuns label call s
  | .expression span value => expression_runs span (expression_computes labels calls value)
  | .returns span value => return_runs span (expression_computes labels calls value)
  | .assign span name value =>
    other_runs (assign_performs (expression_computes labels calls value) name) (by intros; simp) (by intros; simp)
  | .declare span mutability name value => by
    have bound := bind_performs (expression_computes labels calls value) name mutability
    refine other_runs ?_ (by intros; simp) (by intros; simp)
    cases value with
    | function place own parameters body =>
      exact declareFunction_performs labels span place mutability name own parameters body
    | _ => exact bound

theorem body_runs (labels : a.Labelled label) (calls : a.Calls call) :
    ∀ body : List Stmt, ∀ s ∈ body, a.StatementRuns label call s
  | [], _, present => by cases present
  | first :: rest, s, present => by
    have here := statement_runs labels calls first
    have others := body_runs labels calls rest
    rcases List.mem_cons.mp present with rfl | later
    · exact here
    · exact others s later

theorem expression_computes (labels : a.Labelled label) (calls : a.Calls call) :
    ∀ e : Expr, a.Computes (Layout.expression e) e.events (Doing.expression label call e)
  | .identifier span name => name_computes name
  | .integer span n => constant_computes (d := .integer n) (.simple rfl rfl)
  | .float span n => constant_computes (d := .float n) (.simple rfl rfl)
  | .string span text => constant_computes (d := .string text) (.simple rfl rfl)
  | .boolean span true => push_computes (d := .boolean true) (.simple rfl rfl) rfl
  | .boolean span false => push_computes (d := .boolean false) (.simple rfl rfl) rfl
  | .unary span operator right => by
    have inner := expression_computes labels calls right
    intro p q n s operands m lies holds
    obtain ⟨op, known, lies⟩ := lies
    exact unary_computes inner known p q n s operands m lies holds
  | .binary span operator left right => by
    have one := expression_computes labels calls left
    have two := expression_computes labels calls right
    intro p q n s operands m lies holds
    obtain ⟨op, known, lies⟩ := lies
    have meaning := binary_code known
    rw [show Compiling.rightFirst operator = swapped operator from rfl] at lies
    rw [Expr.events, Doing.expression]
    split at lies
    · rename_i right
      simp only [meaning, if_pos right]
      exact binary_computes two one known p q n s operands m lies holds
    · rename_i left
      simp only [meaning, if_neg left]
      exact binary_computes one two known p q n s operands m lies holds
  | .conditional span condition consequence none =>
    lone_computes (expression_computes labels calls condition) (block_computes (body_runs labels calls consequence))
      (Layout.branch_tells (Layout.body_tells consequence))
  | .conditional span condition consequence (some alternative) =>
    choice_computes (expression_computes labels calls condition) (block_computes (body_runs labels calls consequence))
      (block_computes (body_runs labels calls alternative)) (Layout.branch_tells (Layout.body_tells consequence))
      (Layout.branch_tells (Layout.body_tells alternative))
  | .function span own parameters body => by
    have made := make_computes labels (own.map (·, .fixed)) parameters body
    rwa [Option.map_map, show Prod.fst ∘ (fun x : String => (x, Mutability.fixed)) = id from rfl, Option.map_id] at made
  | .call span callee arguments =>
    call_computes calls (expression_computes labels calls callee) (all_compute (each_computes labels calls arguments))
  | .array span elements => array_computes (all_compute (each_computes labels calls elements))
  | .hash span pairs => by
    have each := pairs_compute labels calls pairs
    have sorted := inOrder_computes fun p (present : p ∈ pairs.mergeSort Compiling.byText) =>
      each p (List.mem_mergeSort.mp present)
    rw [List.length_mergeSort] at sorted
    rw [Layout.expression, Compiling.pairParts_eq, Compiling.sorted_map, Expr.events,
      Layout.pairEvents_eq, Compiling.sorted_map, Doing.expression, pairSteps_eq, Compiling.sorted_map]
    exact hash_computes sorted
  | .index span target position => index_computes (expression_computes labels calls target) (expression_computes labels calls position)

theorem each_computes (labels : a.Labelled label) (calls : a.Calls call) :
    ∀ es : List Expr, ∀ e ∈ es, a.Computes (Layout.expression e) e.events (Doing.expression label call e)
  | [], _, present => by cases present
  | first :: rest, e, present => by
    have here := expression_computes labels calls first
    have others := each_computes labels calls rest
    rcases List.mem_cons.mp present with rfl | later
    · exact here
    · exact others e later

theorem pairs_compute (labels : a.Labelled label) (calls : a.Calls call) :
    ∀ pairs : List (Expr × Expr), ∀ pair ∈ pairs,
    a.Computes (Layout.expression pair.1) pair.1.events (Doing.expression label call pair.1) ∧
      a.Computes (Layout.expression pair.2) pair.2.events (Doing.expression label call pair.2)
  | [], _, present => by cases present
  | (key, value) :: rest, pair, present => by
    have first := expression_computes labels calls key
    have second := expression_computes labels calls value
    have others := pairs_compute labels calls rest
    rcases List.mem_cons.mp present with rfl | later
    · exact ⟨first, second⟩
    · exact others pair later

end

end Activation
end StackScript
