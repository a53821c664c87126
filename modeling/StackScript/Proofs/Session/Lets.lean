import StackScript.Proofs.Compiler.Origins
import StackScript.Proofs.Machine.Globals
import StackScript.Proofs.Session.Safety

-- Names declared by `let` are constant. Over the whole life of a session a global one gets one value at most, and so does
-- one of a function while the function is running; parameters get none but their arguments.
namespace StackScript.Session

-- The machines that the run of a text goes through, each before one of its steps.
def trail (s : Session) (budget : Nat) (source : String) : List Machine :=
  match s.compiled source with
  | .ok c => (Machine.start c.bytecode s.globals).trail 0 budget
  | .error _ => []

-- The machines of all texts of a session, one text after the other.
def life : List (Nat × String) → Session → List Machine
  | [], _ => []
  | (budget, source) :: rest, s => s.trail budget source ++ life rest (s.eval budget source).2

-- A session whose functions were compiled in it.
structure Rooted (s : Session) : Prop extends s.Sound where
  origins : ∀ r, .function r ∈ s.constants → r.From s.symbols.outermost

theorem new_rooted : new.Rooted := ⟨new_sound, by simp [new]⟩

theorem eval_state (s : Session) (budget : Nat) (source : String) : (s.eval budget source).2 =
    match s.compiled source with
    | .ok c => ⟨c.symbols, c.constants, ((Machine.start c.bytecode s.globals).run budget).2.globals⟩
    | .error _ => s := by
  rw [eval_eq]
  cases s.compiled source <;> rfl

theorem eval_run {s : Session} (rooted : s.Rooted) (budget : Nat) (source : String) :
    s.symbols.Grows (s.eval budget source).2.symbols ∧ (s.eval budget source).2.Rooted ∧
      (s.trail budget source = [] ∨ ∃ p c, (Compiler.resume s.symbols s.constants).compile p = .ok () c ∧
        c.symbols = (s.eval budget source).2.symbols ∧ c.constants = (s.eval budget source).2.constants ∧
        s.trail budget source = (Machine.start c.bytecode s.globals).trail 0 budget) := by
  have sound := (eval_sound rooted.toSound budget source).2
  have state := eval_state s budget source
  cases result : s.compiled source with
  | error e =>
    rw [result] at state
    rw [state]
    exact ⟨.refl _, rooted, .inl (by rw [trail, result])⟩
  | ok c =>
    rw [result] at state
    obtain ⟨p, run⟩ := compiled_ok result
    obtain ⟨grown, -, -, -⟩ := Compiler.compile_lies (Compiler.resume_ready rooted.symbols s.constants) rooted.main run
    have origins := Compiler.compile_origins rooted.symbols rooted.main run rooted.origins
    refine ⟨by rw [state]; exact grown.symbols, ⟨sound, by rw [state]; exact origins⟩, .inr ⟨p, c, run, ?_⟩⟩
    rw [state, trail, result]
    exact ⟨rfl, rfl, rfl⟩

-- How often a text gives a value to the slot of a fixed name: once if it declares the name, and otherwise never.
theorem trail_spends {s : Session} (rooted : s.Rooted) (budget : Nat) (source : String) {i : Nat}
    (fixed : (s.eval budget source).2.symbols.Fixed (.global i)) :
    ((s.trail budget source).countP fun m => m.written? = some (.global i)) + s.symbols.innermost.holders (.global i) ≤
        (s.eval budget source).2.symbols.innermost.holders (.global i) ∧
      ∀ m ∈ s.trail budget source, m.written? = some (.global i) →
        m.callers = #[] ∧ m.frame.routine.code.itemAt m.frame.next = .instruction ⟨.setGlobal, [i]⟩ := by
  obtain ⟨grows, after, nothing | ⟨p, c, run, symbols, constants, trail⟩⟩ := eval_run rooted budget source
  · rw [nothing]
    simpa using grows.innermost.holders (.global i)
  · rw [← symbols] at fixed grows ⊢
    have more := grows.innermost.holders (.global i)
    obtain ⟨-, -, start⟩ := start_sound rooted.toSound run
    have most := Compiler.compile_most rooted.symbols rooted.main run fixed
    have quiet (r : Routine) (present : .function r ∈ c.constants) : r.code.AtMost (.global i) 0 0 := by
      rw [constants] at present
      obtain ⟨scope, around, compiled, before⟩ := after.origins r present
      exact compiled.global_never (symbols ▸ before) fixed
    have code : (Machine.start c.bytecode s.globals).frame.routine.code = c.fragment.code := by
      rw [(Compiler.compile_done rooted.symbols rooted.main run).bytecode]
      rfl
    rw [← code] at most
    have spends := Machine.spends_main (m := Machine.start c.bytecode s.globals) rfl most
    obtain ⟨count, each⟩ := spends.trail start (Machine.quiet_global quiet) budget
    rw [trail]
    refine ⟨by omega, fun m present written => ?_⟩
    obtain ⟨left, spends⟩ := each m present
    obtain ⟨outermost, j, slot, item, sets, same⟩ := spends.writer written
    rw [Slot.above_inj (t := .global i) same] at sets
    refine ⟨Array.eq_empty_of_size_eq_zero outermost, ?_⟩
    rw [item]
    unfold Instruction.sets? at sets
    split at sets <;> cases sets
    rfl

theorem trail_declares {s : Session} (rooted : s.Rooted) {budget : Nat} {source : String} {i : Nat}
    (fixed : (s.eval budget source).2.symbols.Fixed (.global i)) {m : Machine} (present : m ∈ s.trail budget source)
    (written : m.written? = some (.global i)) :
    ¬ s.symbols.innermost.Has (.global i) ∧ (s.eval budget source).2.symbols.innermost.Has (.global i) := by
  have spent := (trail_spends rooted budget source fixed).1
  have counted : 0 < (s.trail budget source).countP fun m => m.written? = some (.global i) :=
    List.countP_pos_iff.mpr ⟨m, present, decide_eq_true written⟩
  have one := (s.eval budget source).2.symbols.innermost.holders_le_one (.global i)
  constructor
  · intro has
    rw [Scope.holders_of_has has] at spent
    omega
  · by_contra lacks
    rw [Scope.holders_of_not lacks] at spent
    omega

theorem trail_sound {s : Session} (rooted : s.Rooted) (budget : Nat) (source : String) : ∀ m ∈ s.trail budget source,
    ∃ pool, m.Sound pool ∧ ∀ r, .function r ∈ pool → ∃ scope around, r.Compiled scope around := by
  intro m present
  obtain ⟨-, after, nothing | ⟨p, c, run, -, constants, trail⟩⟩ := eval_run rooted budget source
  · rw [nothing] at present
    cases present
  · rw [trail] at present
    obtain ⟨-, -, start⟩ := start_sound rooted.toSound run
    refine ⟨c.constants, start.trail m present, fun r known => ?_⟩
    obtain ⟨scope, around, compiled, -⟩ := after.origins r (constants ▸ known)
    exact ⟨scope, around, compiled⟩

theorem after_rooted (inputs : List (Nat × String)) {s : Session} (rooted : s.Rooted) :
    s.symbols.Grows (s.after inputs).symbols ∧ (s.after inputs).Rooted := by
  refine after_keeps (fun t => s.symbols.Grows t.symbols ∧ t.Rooted) ?_ inputs ⟨.refl _, rooted⟩
  rintro t budget source ⟨before, here⟩
  obtain ⟨grows, later, -⟩ := eval_run here budget source
  exact ⟨before.trans grows, later⟩

theorem eval_unwritten (s : Session) (budget : Nat) (source : String) {i : Nat}
    (quiet : ∀ m ∈ s.trail budget source, m.written? ≠ some (.global i)) :
    (s.eval budget source).2.globals[i]?.getD .null = s.globals[i]?.getD .null := by
  rw [eval_state]
  cases result : s.compiled source with
  | error e => rfl
  | ok c =>
    rw [trail, result] at quiet
    exact Running.run_leaves quiet

theorem eval_leaves {s : Session} (rooted : s.Rooted) (budget : Nat) (source : String) {i : Nat}
    (has : s.symbols.innermost.Has (.global i)) (fixed : (s.eval budget source).2.symbols.Fixed (.global i)) :
    (s.eval budget source).2.globals[i]?.getD .null = s.globals[i]?.getD .null := by
  apply eval_unwritten
  intro m present written
  exact (trail_declares rooted fixed present written).1 has

theorem after_leaves (inputs : List (Nat × String)) {s : Session} (rooted : s.Rooted) {i : Nat}
    (has : s.symbols.innermost.Has (.global i)) (fixed : (s.after inputs).symbols.Fixed (.global i)) :
    (s.after inputs).globals[i]?.getD .null = s.globals[i]?.getD .null := by
  induction inputs generalizing s with
  | nil => rfl
  | cons input rest ih =>
    obtain ⟨budget, source⟩ := input
    obtain ⟨grows, later, -⟩ := eval_run rooted budget source
    have here := eval_leaves rooted budget source has (fixed.before (after_rooted rest later).1)
    exact (ih later (has.grows grows.innermost) fixed).trans here

-- How often the texts of a session give a value to the slot of a fixed name, by induction on the texts.
theorem life_spends (inputs : List (Nat × String)) {s : Session} (rooted : s.Rooted) {i : Nat}
    (fixed : (s.after inputs).symbols.Fixed (.global i)) :
    ((s.life inputs).countP fun m => m.written? = some (.global i)) + s.symbols.innermost.holders (.global i) ≤
      (s.after inputs).symbols.innermost.holders (.global i) := by
  induction inputs generalizing s with
  | nil => simp [life, after]
  | cons input rest ih =>
    obtain ⟨budget, source⟩ := input
    obtain ⟨-, later, -⟩ := eval_run rooted budget source
    have others := ih later fixed
    have here := (trail_spends rooted budget source (fixed.before (after_rooted rest later).1)).1
    rw [life, List.countP_append, after]
    omega

theorem life_member {inputs : List (Nat × String)} {s : Session} {m : Machine} (present : m ∈ s.life inputs) :
    ∃ before budget source rest, inputs = before ++ (budget, source) :: rest ∧
      m ∈ (s.after before).trail budget source := by
  induction inputs generalizing s with
  | nil => cases present
  | cons input rest ih =>
    obtain ⟨budget, source⟩ := input
    rcases List.mem_append.mp present with here | later
    · exact ⟨[], budget, source, rest, rfl, here⟩
    · obtain ⟨before, more, text, others, rfl, inside⟩ := ih later
      exact ⟨(budget, source) :: before, more, text, others, rfl, inside⟩

theorem call_spends {inputs : List (Nat × String)} {m n : Machine} (present : m ∈ new.life inputs)
    (run : Running.step m = .ok .next n) (deeper : n.callers.size = m.callers.size + 1) :
    (∃ scope around, n.frame.routine.Compiled scope around) ∧ ∀ budget,
      (∀ i < n.frame.routine.parameters, ∀ q ∈ n.trail n.callers.size budget,
        q.written? ≠ some (.frame (n.frame.base + i))) ∧
      ∀ scope around, n.frame.routine.Compiled scope around → ∀ (x : String) (symbol : Symbol),
        scope.symbols[x]? = some symbol → symbol.storage = .frame → symbol.mutability = .fixed →
        ((n.trail n.callers.size budget).countP fun q => q.written? = some (.frame (n.frame.base + symbol.index))) ≤ 1 := by
  obtain ⟨before, spent, source, rest, -, inside⟩ := life_member present
  obtain ⟨pool, sound, compiled⟩ := trail_sound (after_rooted before new_rooted).2 spent source m inside
  have entered := sound.after_step run
  have start := Machine.enters run deeper
  obtain ⟨scope, around, origin⟩ := compiled _ (entered.running (by omega)).pooled
  refine ⟨⟨scope, around, origin⟩, fun budget => ⟨fun i below q later => ?_, ?_⟩⟩
  · obtain ⟨inside, most⟩ := origin.parameter_never below
    have unwritten := List.countP_eq_zero.mp (Nat.le_zero.mp (entered.slot_count start inside most budget)) q later
    simpa using unwritten
  · intro scope around origin x symbol found frame fixed
    obtain ⟨inside, most⟩ := origin.fixed_once found frame fixed
    exact entered.slot_count start inside most budget

-- A global name that is fixed gets a value at most once in the life of a session, whatever its texts do and however they
-- end: by the main program of the text that declares it, where it is declared, and from then on it has this value. A
-- function that is called gives its parameters no values while it runs, nor does any other function, and each of its
-- fixed names at most one; it was compiled from a body with such names.
theorem lets_written_once (inputs : List (Nat × String)) :
    (∀ (x : String) (symbol : Symbol), (new.after inputs).symbols.innermost.symbols[x]? = some symbol →
      symbol.storage = .global → symbol.mutability = .fixed →
      ((new.life inputs).countP fun m => m.written? = some (.global symbol.index)) ≤ 1 ∧
      (∀ before budget source rest, inputs = before ++ (budget, source) :: rest →
        ∀ m ∈ (new.after before).trail budget source, m.written? = some (.global symbol.index) →
          m.callers = #[] ∧ m.frame.routine.code.itemAt m.frame.next = .instruction ⟨.setGlobal, [symbol.index]⟩ ∧
          (new.after before).symbols.innermost.symbols[x]? ≠ some symbol ∧
          ((new.after before).eval budget source).2.symbols.innermost.symbols[x]? = some symbol) ∧
      ∀ before rest, inputs = before ++ rest → (new.after before).symbols.innermost.symbols[x]? = some symbol →
        (new.after inputs).globals[symbol.index]?.getD .null = (new.after before).globals[symbol.index]?.getD .null) ∧
    ∀ m ∈ new.life inputs, ∀ n, Running.step m = .ok .next n → n.callers.size = m.callers.size + 1 →
      (∃ scope around, n.frame.routine.Compiled scope around) ∧ ∀ budget,
        (∀ i < n.frame.routine.parameters, ∀ q ∈ n.trail n.callers.size budget,
          q.written? ≠ some (.frame (n.frame.base + i))) ∧
        ∀ scope around, n.frame.routine.Compiled scope around → ∀ (x : String) (symbol : Symbol),
          scope.symbols[x]? = some symbol → symbol.storage = .frame → symbol.mutability = .fixed →
          ((n.trail n.callers.size budget).countP fun q => q.written? = some (.frame (n.frame.base + symbol.index))) ≤ 1 := by
  constructor
  · intro x symbol found global fixed
    obtain ⟨-, last⟩ := after_rooted inputs new_rooted
    have named : symbol.name = x := SymbolTable.ValidIn.named last.symbols found
    have slot : symbol.slot? = some (.global symbol.index) := Symbol.slot_global.mpr ⟨global, rfl⟩
    rw [← named] at found ⊢
    have settled := SymbolTable.Fixed.of_known last.symbols (.here found) slot fixed
    refine ⟨?_, ?_, ?_⟩
    · have spent := life_spends inputs new_rooted settled
      have one := (new.after inputs).symbols.innermost.holders_le_one (.global symbol.index)
      omega
    · rintro before budget source rest rfl m present written
      obtain ⟨-, rooted⟩ := after_rooted before new_rooted
      obtain ⟨-, later, -⟩ := eval_run rooted budget source
      rw [after_append] at last found settled
      have onward : ((new.after before).eval budget source).2.symbols.Grows
          ((new.after before).after ((budget, source) :: rest)).symbols := (after_rooted rest later).1
      have settled := settled.before onward
      obtain ⟨main, item⟩ := (trail_spends rooted budget source settled).2 m present written
      obtain ⟨unknown, other, known, same⟩ := trail_declares rooted settled present written
      refine ⟨main, item, fun known => unknown ⟨symbol, known, slot⟩, ?_⟩
      -- The name that the text declares for the slot is still there in the end.
      have kept := onward.innermost.declared _ _ known (Symbol.slot_kept same)
      have equal : other = symbol := (SymbolTable.Knows.here kept).unique last.symbols (.here found) same slot
      rwa [equal] at known
    · rintro before rest rfl known
      obtain ⟨-, rooted⟩ := after_rooted before new_rooted
      rw [after_append] at settled ⊢
      exact after_leaves rest rooted ⟨symbol, known, slot⟩ settled
  · intro m present n run deeper
    exact call_spends present run deeper

def declaring : List (Nat × String) := [(20, "let c = 5;")]
def passing : List (Nat × String) := [(20, "fn(x) { let y = x; y }(c)")]

-- fn(x) { let y = x; y }
def copying : Compiling (Code × Scope) := Compiling.functionBody ["x"] .unknown
  [.declare .unknown .fixed "y" (.identifier .unknown "x"), .expression .unknown (.identifier .unknown "y")]

def copies (m : Machine) : Bool :=
  match Running.step m, copying (Compiling.entered none .new) with
  | .ok .next n, .ok (code, scope) _ => n.callers.size = m.callers.size + 1 && n.frame.routine.code = code &&
    n.frame.routine.parameters = 1 && n.frame.routine.locals = scope.slots &&
    scope.symbols["y"]? = some ⟨"y", 1, .fixed, .frame⟩
  | _, _ => false

theorem lets_written_once_declaring : ∃ (o m n : Machine) (scope : Scope) (around : SymbolTable),
    (new.life (declaring ++ passing)).countP (fun m => m.written? = some (.global 0)) ≤ 1 ∧
    o ∈ new.trail 20 "let c = 5;" ∧ o.frame.routine.code.itemAt o.frame.next = .instruction ⟨.setGlobal, [0]⟩ ∧
    (new.after (declaring ++ passing)).globals[0]?.getD .null = (new.after declaring).globals[0]?.getD .null ∧
    m ∈ new.life (declaring ++ passing) ∧ Running.step m = .ok .next n ∧ n.frame.routine.parameters = 1 ∧
    (∀ q ∈ n.trail n.callers.size 20, q.written? ≠ some (.frame (n.frame.base + 0))) ∧
    n.frame.routine.Compiled scope around ∧ scope.symbols["y"]? = some ⟨"y", 1, .fixed, .frame⟩ ∧
    (n.trail n.callers.size 20).countP (fun q => q.written? = some (.frame (n.frame.base + 1))) ≤ 1 := by
  have found : (new.after (declaring ++ passing)).symbols.innermost.symbols["c"]? = some ⟨"c", 0, .fixed, .global⟩ := by
    decide +kernel
  have early : (new.after declaring).symbols.innermost.symbols["c"]? = some ⟨"c", 0, .fixed, .global⟩ := by decide +kernel
  have set : (new.trail 20 "let c = 5;")[1]?.bind Machine.written? = some (.global 0) := by decide +kernel
  have enters : (new.life (declaring ++ passing))[5]?.any copies = true := by decide +kernel
  obtain ⟨o, first, written⟩ := Option.bind_eq_some_iff.mp set
  have first := List.mem_of_getElem? first
  obtain ⟨m, here, facts⟩ := (Option.any_eq_true _ _).mp enters
  have here := List.mem_of_getElem? here
  unfold copies at facts
  split at facts
  · rename_i n code scope d run body
    simp only [Bool.and_eq_true, decide_eq_true_eq] at facts
    obtain ⟨⟨⟨⟨deeper, rfl⟩, parameters⟩, locals⟩, y⟩ := facts
    have compiled : n.frame.routine.Compiled scope d.symbols :=
      ⟨none, ["x"], .unknown, _, .new, d, new_sound.symbols, body, parameters, locals, rfl⟩
    obtain ⟨global, call⟩ := lets_written_once (declaring ++ passing)
    obtain ⟨once, setting, kept⟩ := global "c" _ found rfl rfl
    obtain ⟨-, quiet⟩ := call m here n run deeper
    obtain ⟨parameter, own⟩ := quiet 20
    obtain ⟨-, item, -, -⟩ := setting [] 20 "let c = 5;" passing rfl o first written
    exact ⟨o, m, n, scope, d.symbols, once, first, item, kept declaring passing rfl early, here, run, parameters,
      parameter 0 (by omega), compiled, y, own scope d.symbols compiled "y" _ y rfl rfl⟩
  · contradiction

end StackScript.Session
