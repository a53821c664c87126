import StackScript.Proofs.Meaning.Statements

-- A compiled program does what the program means.
namespace StackScript

-- Calls within calls go as deep in a machine as in an evaluation, which ends at the depth where a machine overflows.
theorem apply_calls {label : Nat → Routine} (depth : Nat) (a : Activation) (labels : a.Labelled label)
    (deep : Machine.frameCapacity ≤ depth + a.callers.size + 1) : a.Calls (Doing.apply Literal.closed label depth) := by
  induction depth generalizing a with
  | zero =>
    refine Activation.called_calls fun frames => ?_
    omega
  | succ depth ih =>
    refine Activation.called_calls fun _ => ⟨fun f => Doing.block label (Doing.apply Literal.closed label depth) f.body, fun _ _ _ => rfl, ?_⟩
    intro b f constants _ callers
    have known : b.Labelled label := by
      rw [Activation.Labelled, constants]
      exact labels
    exact Activation.block_finishes (Activation.body_runs known (ih b known (by omega)) f.body)

namespace Compiler

theorem nativeNames_reflects : nativeNames.Reflects ⟨[], [], 0⟩ := by
  obtain ⟨valid, main⟩ := nativeNames_valid
  rw [SymbolTable.Valid, main] at valid
  rw [SymbolTable.Reflects, main]
  refine ⟨fun x symbol => valid.named, fun x => ?_, rfl⟩
  simp only [nativeNames, Builtin.all, List.foldl, SymbolTable.defineNative, SymbolTable.empty, List.reverse_nil,
    Scope.bind_symbols, Scope.empty_symbols, Names.outer?, List.idxOf?_nil, List.find?]
  by_cases native : ∃ b : Builtin, b.name = x
  · obtain ⟨b, rfl⟩ := native
    cases b <;> decide
  · have other (b : Builtin) : ¬ b.name = x := fun same => native ⟨b, same⟩
    simp [other]

-- The routine of a function by its place among the numbers, strings and functions of a program.
def label (c : Compiler) (n : Nat) : Routine :=
  match c.constants[n]? with
  | some (.function r) => r
  | _ => ⟨#[], 0, 0⟩

end Compiler

namespace Machine

variable {m o : Machine} {goal : Machine → Prop} {fails : Stop → Machine → Prop} {P : Ending → Machine → Prop}

-- How a run ends that may take as many steps as it needs.
def EndsAs (m : Machine) (ending : Ending) (o : Machine) : Prop :=
  ∃ least, ∀ budget, least ≤ budget → m.run budget = (ending, o)

theorem ends_of_run {budget : Nat} {ending : Ending} (run : m.run budget = (ending, o)) (stopped : ending ≠ .unfinished) :
    m.EndsAs ending o := by
  refine ⟨budget, fun more enough => ?_⟩
  obtain ⟨rest, rfl⟩ := Nat.exists_eq_add_of_le enough
  exact run_longer run stopped rest

theorem EndsAs.unique {first second : Ending} {n : Machine} (ends : m.EndsAs first n) (again : m.EndsAs second o) :
    first = second ∧ n = o := by
  obtain ⟨least, ends⟩ := ends
  obtain ⟨least', again⟩ := again
  have one := ends (max least least') (Nat.le_max_left ..)
  rw [again (max least least') (Nat.le_max_right ..)] at one
  cases one
  exact ⟨rfl, rfl⟩

theorem Leads.ends (leads : m.Leads goal fails) (reached : ∀ o, goal o → ∃ ending r, o.EndsAs ending r ∧ P ending r)
    (stopped : ∀ stop o, fails stop o → P (.stopped stop) o) : ∃ ending r, m.EndsAs ending r ∧ P ending r := by
  obtain ⟨count, ⟨o, here, same⟩ | ⟨stop, o, fails, same⟩⟩ := leads.run
  · obtain ⟨ending, r, ⟨least, ends⟩, holds⟩ := reached o here
    refine ⟨ending, r, ⟨count + least, fun budget enough => ?_⟩, holds⟩
    obtain ⟨more, rfl⟩ := Nat.exists_eq_add_of_le (Nat.le_trans (Nat.le_add_right count least) enough)
    rw [same]
    exact ends more (by omega)
  · refine ⟨.stopped stop, o, ⟨count, fun budget enough => ?_⟩, stopped stop o fails⟩
    obtain ⟨more, rfl⟩ := Nat.exists_eq_add_of_le enough
    exact same more

theorem ends_halt (halt : Running.step m = .ok .halt o) : m.EndsAs .halted o := by
  have run : m.run 1 = (.halted, o) := by rw [Machine.run, halt]
  exact ends_of_run run (by simp)

end Machine

-- A run that has ended shows how an evaluation ends.
def Shown (r : EStateM.Result Exit Situation Unit) (ending : Ending) (o : Machine) : Prop :=
  match r with
  | .ok _ s => ending = .halted ∧ s.world.Shows o
  | .error (.returned d) s => ending = .halted ∧ World.Shows { s.world with last := some d } o
  | .error (.failed f) s => ending = .failed f ∧ s.world.Shows o
  | .error .exhausted _ => False

namespace Activation

variable {a : Activation} {p : Point} {n : Names} {s : Situation} {m : Machine} {d : Datum}

theorem Holds.halts (holds : a.Holds p n s [] m) (main : a.callers = #[]) (done : p.position = a.finished.code.size) :
    ∃ o, m.EndsAs .halted o ∧ s.world.Shows o := by
  refine ⟨m, Machine.ends_halt ?_, holds.shows⟩
  have item : m.frame.routine.code.itemAt m.frame.next = .nothing := by
    rw [holds.code, holds.next, done, Code.itemAt, Array.getElem?_size]
  simp only [Running.step, bind, EStateM.bind, get_run, item, holds.callers, main]
  rfl

theorem Returning.halts (returning : a.Returning d s m) (main : a.callers = #[]) :
    ∃ o, m.EndsAs .halted o ∧ World.Shows { s.world with last := some d } o := by
  obtain ⟨target, vars, operands, leaves⟩ := returning.leaves
  have callers := returning.callers
  rw [main] at callers
  have halt : Running.step m =
      .ok .halt { (Running.goto m target).holding (a.stack vars operands) with last := some d.value } := by
    simp only [leaves, Running.leave, Machine.holding, Running.goto, callers, Array.back?_empty]
  exact ⟨_, Machine.ends_halt halt, returning.shows.output, rfl, returning.shows.globals⟩

end Activation

theorem start_holds (d : Compiler) (main : d.enclosing = []) :
    Activation.Holds ⟨d.finished, [], #[]⟩ Compiler.new.point ⟨[], [], 0⟩ .initial [] (Machine.start d.bytecode #[]) := by
  have code : d.bytecode = ⟨d.fragment.code, d.constants⟩ := by
    rw [Compiler.bytecode, main]
    rfl
  rw [code]
  refine ⟨rfl, rfl, rfl, rfl, fun x e nothing => (by cases nothing), rfl, rfl, rfl, ?_, ⟨rfl, rfl, fun _ => rfl⟩, ?_, ?_, ?_⟩
  · exact Nat.zero_le _
  · exact ⟨Compiler.nativeNames_valid.1, Compiler.nativeNames_reflects, rfl⟩
  · exact ⟨rfl, rfl, rfl, rfl, rfl, rfl⟩
  · refine ⟨fun _ => .simple rfl rfl, ?_, ?_, ?_⟩
    · exact List.forall_mem_nil _
    · intro v present
      cases present
    · exact List.forall_mem_nil _

theorem follows_shown {a : Activation} {q : Point} {n : Names} {m : Machine} {r : EStateM.Result Exit Situation Unit}
    (main : a.callers = #[]) (done : q.position = a.finished.code.size)
    (follows : Follows m r (fun _ t o => a.Holds q n t [] o) a.Returning) :
    ∃ ending o, m.EndsAs ending o ∧ (ending = .failed .stackOverflow ∨ Shown r ending o) := by
  cases r with
  | ok _ s =>
    refine Machine.Leads.ends follows (fun o holds => ?_) fun f o spilled => .inl (congrArg Ending.stopped spilled)
    obtain ⟨r, halts, shows⟩ := holds.halts main done
    exact ⟨.halted, r, halts, .inr ⟨rfl, shows⟩⟩
  | error e s =>
    cases e with
    | returned d =>
      refine Machine.Leads.ends follows (fun o returning => ?_) fun f o spilled => .inl (congrArg Ending.stopped spilled)
      obtain ⟨r, halts, shows⟩ := returning.halts main
      exact ⟨.halted, r, halts, .inr ⟨rfl, shows⟩⟩
    | failed f =>
      refine Machine.Leads.ends follows (fun o never => never.elim) fun g o fails => ?_
      rcases fails with spilled | ⟨same, shows⟩
      · exact .inl (congrArg Ending.stopped spilled)
      · exact .inr ⟨congrArg Ending.stopped same, shows⟩
    | exhausted =>
      exact Machine.Leads.ends follows (fun o never => never.elim) fun f o spilled => .inl (congrArg Ending.stopped spilled)

-- A compiled program runs to its end as it is evaluated, unless its stack overflows. The own names of functions denote the
-- functions closed.
theorem compile_preserves_meaning (p : Program) (d : Compiler) (depth : Nat) (run : Compiler.new.compile p = .ok () d)
    (deep : Machine.frameCapacity ≤ depth + 1) :
    ∃ ending o, (Machine.start d.bytecode #[]).EndsAs ending o ∧
      (ending = .failed .stackOverflow ∨ Shown (p.perform Literal.closed d.label depth) ending o) := by
  obtain ⟨natives, outermost⟩ := Compiler.nativeNames_valid
  obtain ⟨grown, done, main, lies⟩ := Compiler.compile_lies (Compiler.resume_ready natives #[]) outermost run
  let a : Activation := ⟨d.finished, [], #[]⟩
  have labels : a.Labelled d.label := by
    intro i r here
    rw [Compiler.label, show d.constants[i]? = some (.function r) from here]
  have calls := apply_calls depth a labels (by simpa [a] using deep)
  have performs := Activation.statements_perform (Activation.body_runs labels calls p.statements)
  have follows := performs _ _ _ _ _ _ lies (start_holds d grown.enclosing)
  exact follows_shown rfl rfl follows

-- let make = fn(limit) { let step = fn(n) { if (n > limit) { return n; } step(n + n) }; step }; make(9)(1)
def Program.doubling : Program :=
  ⟨[.declare .unknown .fixed "make" (.function .unknown (some "make") ["limit"]
      [.declare .unknown .fixed "step" (.function .unknown (some "step") ["n"]
        [.expression .unknown (.conditional .unknown
          (.binary .unknown ">" (.identifier .unknown "n") (.identifier .unknown "limit"))
          [.returns .unknown (.identifier .unknown "n")] none),
        .expression .unknown (.call .unknown (.identifier .unknown "step")
          [.binary .unknown "+" (.identifier .unknown "n") (.identifier .unknown "n")])]),
      .expression .unknown (.identifier .unknown "step")]),
    .expression .unknown (.call .unknown (.call .unknown (.identifier .unknown "make") [.integer .unknown 9])
      [.integer .unknown 1])], none⟩

-- What a machine leaves as the last value if it halts within so many steps. Only keys are told apart.
def Machine.leaves? (budget : Nat) (m : Machine) : Option Key :=
  match m.run budget with
  | (.halted, o) => o.last.bind Value.key?
  | _ => none

theorem Machine.leaves_ends {m : Machine} {budget : Nat} {k : Key} (leaves : m.leaves? budget = some k) :
    ∃ o, m.EndsAs .halted o ∧ o.last = some k.toValue := by
  rw [leaves?] at leaves
  split at leaves
  · rename_i o halts
    obtain ⟨v, last, key⟩ := Option.bind_eq_some_iff.mp leaves
    cases Value.key?_eq key
    exact ⟨o, ends_of_run halts (by simp), last⟩
  · cases leaves

theorem compile_preserves_meaning_doubling : ∃ d o, Compiler.new.compile .doubling = .ok () d ∧
    Machine.frameCapacity ≤ 1023 + 1 ∧ (Machine.start d.bytecode #[]).EndsAs .halted o ∧ o.last = some (.integer 16) ∧
      Shown (Program.doubling.perform Literal.closed d.label 1023) .halted o := by
  obtain ⟨d, run⟩ : Program.doubling.Compiles := by decide +kernel
  have deep : Machine.frameCapacity ≤ 1023 + 1 := by decide
  have sixteen : (match Compiler.new.compile .doubling with
      | .ok _ d => (Machine.start d.bytecode #[]).leaves? 100
      | .error _ _ => none) = some (.integer 16) := by decide +kernel
  rw [run] at sixteen
  obtain ⟨o, ends, last⟩ := Machine.leaves_ends sixteen
  obtain ⟨ending, n, again, same⟩ := compile_preserves_meaning .doubling d 1023 run deep
  obtain ⟨rfl, rfl⟩ := ends.unique again
  exact ⟨d, o, run, deep, ends, last, same.resolve_left (by simp)⟩

-- let f = fn() { f }; f() == f
def Program.selfEqual : Program :=
  ⟨[.declare .unknown .fixed "f" (.function .unknown (some "f") [] [.expression .unknown (.identifier .unknown "f")]),
    .expression .unknown (.binary .unknown "==" (.call .unknown (.identifier .unknown "f") [])
      (.identifier .unknown "f"))], none⟩

-- What an evaluation leaves as the last value if it comes to its end.
def Situation.leaves? : EStateM.Result Exit Situation Unit → Option Key
  | .ok _ s => s.world.last.bind fun d => d.value.key?
  | .error _ _ => none

theorem Situation.leaves_boolean {r : EStateM.Result Exit Situation Unit} {b : Bool} (left : leaves? r = some (.boolean b)) :
    ∃ s, r = .ok () s ∧ s.world.last = some (.boolean b) := by
  cases r with
  | error => cases left
  | ok _ s =>
    obtain ⟨d, last, key⟩ := Option.bind_eq_some_iff.mp left
    cases d with
    | boolean c =>
      cases key
      exact ⟨s, rfl, last⟩
    | _ => cases key

-- Where the own name denotes what the literal made, a function that gives back its name gives back itself. In compiled code
-- it does not.
theorem compile_closes_own_name : ∃ d o s, Compiler.new.compile .selfEqual = .ok () d ∧
    (Machine.start d.bytecode #[]).EndsAs .halted o ∧ o.last = some (.boolean false) ∧
    Program.selfEqual.perform Literal.made d.label 1023 = .ok () s ∧ s.world.last = some (.boolean true) := by
  obtain ⟨d, run⟩ : Program.selfEqual.Compiles := by decide +kernel
  have facts : (match Compiler.new.compile .selfEqual with
      | .ok _ d => ((Machine.start d.bytecode #[]).leaves? 20,
        Situation.leaves? (Program.selfEqual.perform Literal.made d.label 1023))
      | .error _ _ => (none, none)) = (some (.boolean false), some (.boolean true)) := by decide +kernel
  rw [run] at facts
  obtain ⟨unequal, equal⟩ := Prod.mk.inj facts
  obtain ⟨o, ends, last⟩ := Machine.leaves_ends unequal
  obtain ⟨s, performed, left⟩ := Situation.leaves_boolean equal
  exact ⟨d, o, s, run, ends, last, performed, left⟩

end StackScript
