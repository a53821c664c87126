import StackScript.Proofs.Session.Named

-- A run that fails takes back none of the names of its text. Those that it did not come to stand for null from then on, and
-- cannot be declared again.
namespace StackScript

def Outcome.fault? {α : Type} (o : Outcome α) : Option Fault :=
  match o.result with
  | .error (.run f) => some f
  | _ => none

-- The name that a program reads, if it does nothing else.
def Program.read? (p : Program) : Option String :=
  match p.statements with
  | [.expression _ (.identifier _ x)] => some x
  | _ => none

theorem Program.read?_some {p : Program} {x : String} (reads : p.read? = some x) :
    ∃ s t, p.statements = [.expression s (.identifier t x)] := by
  rw [read?] at reads
  split at reads
  · rename_i s t y statements
    cases reads
    exact ⟨s, t, statements⟩
  · cases reads

structure Code.Reads (code : Code) (i : Nat) : Prop where
  pushes : code.itemAt 0 = .instruction ⟨.getGlobal, [i]⟩
  drops : code.itemAt 3 = .instruction ⟨.pop, []⟩
  ends : code.itemAt 4 = .nothing

open Compiling in
theorem Compiler.compile_reads (constants : Array Value) {symbols : SymbolTable} {p : Program} {x : String} {symbol : Symbol}
    (reads : p.read? = some x) (resolves : symbols.resolve x = .ok (symbol, symbols)) (global : symbol.storage = .global)
    (small : symbol.index < 65536) :
    ∃ c, (resume symbols constants).compile p = .ok () c ∧ c.bytecode.code.Reads symbol.index := by
  obtain ⟨s, t, statements⟩ := Program.read?_some reads
  obtain ⟨front, encoded⟩ := Instruction.encode_fits (i := ⟨.getGlobal, [symbol.index]⟩) ⟨small, trivial⟩
  obtain ⟨back, dropped⟩ := Instruction.encode_fits (i := ⟨.pop, []⟩) trivial
  have loaded : expression (.identifier t x) (resume symbols constants) =
      .ok () ⟨constants, symbols, Fragment.empty.append .getGlobal front, []⟩ := by
    rw [expression]
    simp only [bind, EStateM.bind, resolve, resume, resolves, load, global, emit, encoded]
  have run : (resume symbols constants).compile p =
      .ok () ⟨constants, symbols, (Fragment.empty.append .getGlobal front).append .pop back, []⟩ := by
    rw [compile, statements]
    simp only [Compiling.statements, statement, bind, EStateM.bind, loaded, emit, dropped]
    rfl
  refine ⟨_, run, ?_⟩
  have code : (bytecode ⟨constants, symbols, (Fragment.empty.append .getGlobal front).append .pop back, []⟩).code.toList =
      front ++ back := by
    simp [bytecode, Fragment.append, Fragment.empty, Code.append]
  generalize (bytecode _).code = bytes at code
  have first : front.length = 3 := Instruction.encode_length encoded
  have second : back.length = 1 := Instruction.encode_length dropped
  refine ⟨?_, ?_, ?_⟩
  · have here : bytes.toList = [] ++ (front ++ back) := code
    exact Code.itemAt_holds encoded (Code.holds_between here)
  · rw [← List.append_nil back] at code
    rw [← first]
    exact Code.itemAt_holds dropped (Code.holds_between code)
  · have size : bytes.size = 4 := by rw [← Array.length_toList, code, List.length_append, first, second]
    simp [Code.itemAt, size]

namespace Machine

def within (b : Bytecode) (globals stack : Array Value) (next : Nat) (last : Option Value) : Machine :=
  ⟨b.constants, globals, stack, ⟨⟨b.code, 0, 0⟩, [], next, 0⟩, #[], last, #[]⟩

theorem run_reads {b : Bytecode} {globals : Array Value} {i : Nat} (reads : b.code.Reads i) (more : Nat) :
    (start b globals).run (more + 3) = (.halted, within b globals #[] 4 (some (globals[i]?.getD .null))) := by
  generalize value : globals[i]?.getD .null = v
  have pushed : Running.step (within b globals #[] 0 none) = .ok .next (within b globals #[v] 3 none) := by
    rw [step_at reads.pushes, ← value]
    rfl
  have dropped : Running.step (within b globals #[v] 3 none) = .ok .next (within b globals #[] 4 (some v)) := by
    rw [step_at reads.drops]
    rfl
  have ended : Running.step (within b globals #[] 4 (some v)) = .ok .halt (within b globals #[] 4 (some v)) :=
    Running.step_end reads.ends rfl
  change (within b globals #[] 0 none).run (more + 3) = _
  simp only [run, pushed, dropped, ended]

end Machine

namespace Session

section
variable {s t : Session} {names more : List (String × Mutability)} {x : String} {symbol : Symbol}

theorem Named.index_small (named : s.Named names) (found : s.symbols.innermost.symbols[x]? = some symbol)
    (global : symbol.storage = .global) : symbol.index < 65536 := by
  have name : symbol.name = x := SymbolTable.ValidIn.named named.symbols found
  rw [← name] at found
  have below := SymbolTable.index_below named.symbols found (Symbol.slot_global.mpr ⟨global, rfl⟩)
  exact Nat.lt_of_lt_of_le below named.few

theorem Named.reads (named : s.Named names) (resolved : s.symbols.resolve x = .ok (symbol, s.symbols))
    (global : symbol.storage = .global) {source : String} {p : Program} (parsed : Program.ofSource source = .ok p)
    (reads : p.read? = some x) (more : Nat) :
    (s.eval (more + 3) source).1 = ⟨.ok (some (s.globals[symbol.index]?.getD .null)), #[]⟩ := by
  have found := ((SymbolTable.resolve_outside named.main).mp resolved).1
  have small := named.index_small found global
  obtain ⟨c, run, code⟩ := Compiler.compile_reads s.constants reads resolved global small
  rw [eval_eq, compiled_iff.mpr ⟨p, parsed, run⟩]
  simp only [Machine.run_reads code]
  rfl

theorem Named.fresh (named : s.Named names) (later : t.Named more) (grows : s.symbols.Grows t.symbols)
    (unknown : ¬ s.Visible x) (found : t.symbols.innermost.symbols[x]? = some symbol) (global : symbol.storage = .global) :
    s.globals[symbol.index]?.getD .null = .null := by
  apply named.idle
  rintro ⟨other, known, slot⟩
  have name : symbol.name = x := SymbolTable.ValidIn.named later.symbols found
  have kept := grows.innermost.declared _ _ known (Symbol.slot_kept slot)
  rw [← name] at found
  have same : other = symbol := (SymbolTable.Knows.here kept).unique later.symbols (.here found) slot
    (Symbol.slot_global.mpr ⟨global, rfl⟩)
  rw [same, name] at known
  exact unknown ⟨symbol, _, (SymbolTable.resolve_outside named.main).mpr ⟨known, rfl⟩, global⟩

end

-- A run that fails keeps all names of its text, whether it came to their declarations or not, and the values that it did not
-- replace. A name that is new then is read in later texts, as null if the run did not come to its declaration, and none of
-- them can declare it again.
theorem failed_keeps_names (inputs : List (Nat × String)) (budget : Nat) (source : String) (f : Fault)
    (failed : ((new.after inputs).eval budget source).1.fault? = some f) :
    ∃ p t, Program.ofSource source = .ok p ∧ ((new.after inputs).eval budget source).2 = t ∧
      (∀ x, t.Visible x ↔ (new.after inputs).Visible x ∨ x ∈ p.outside.map Prod.fst) ∧
      (∀ i, (∀ m ∈ (new.after inputs).trail budget source, m.written? ≠ some (.global i)) →
        t.globals[i]?.getD .null = (new.after inputs).globals[i]?.getD .null) ∧
      ∀ x ∈ p.outside.map Prod.fst, ¬ (new.after inputs).Visible x ∧
        (∃ symbol, t.symbols.resolve x = .ok (symbol, t.symbols) ∧ symbol.storage = .global ∧
          ((∀ m ∈ (new.after inputs).trail budget source, m.written? ≠ some (.global symbol.index)) →
            t.globals[symbol.index]?.getD .null = .null) ∧
          ∀ text q more, Program.ofSource text = .ok q → q.read? = some x →
            (t.eval (more + 3) text).1 = ⟨.ok (some (t.globals[symbol.index]?.getD .null)), #[]⟩) ∧
        ∀ later text q, Program.ofSource text = .ok q → x ∈ q.outside.map Prod.fst → (t.after later).Refuses text := by
  obtain ⟨before, named⟩ := after_named inputs new_named
  rw [List.append_nil] at named
  generalize new.after inputs = s at *
  obtain ⟨grows, -, -⟩ := eval_run named.toRooted budget source
  have kept (i : Nat) := eval_unwritten s budget source (i := i)
  cases result : s.compiled source with
  | error e =>
    have other := compiled_error result
    rw [eval_eq, result, Outcome.fault?] at failed
    split at failed
    · rename_i g same
      cases same
      exact absurd trivial other
    · cases failed
  | ok c =>
    obtain ⟨p, parsed, later⟩ := named.eval budget result
    generalize (s.eval budget source).2 = t at grows kept later
    refine ⟨p, t, parsed, rfl, ?_, kept, ?_⟩
    · intro x
      rw [named.visible, later.visible, List.map_append, List.mem_append, or_comm]
    · intro x new
      have visible : x ∈ (p.outside ++ before).map Prod.fst := by
        rw [List.map_append]
        exact List.mem_append_left _ new
      have unknown : ¬ s.Visible x := by
        rw [named.visible]
        exact new_apart later.distinct new
      obtain ⟨symbol, found, global⟩ := (later.stands.global_iff later.main x).mpr visible
      have resolved := (SymbolTable.resolve_outside later.main).mpr ⟨found, rfl⟩
      refine ⟨unknown, ⟨symbol, resolved, global, ?_, ?_⟩, ?_⟩
      · intro quiet
        rw [kept symbol.index quiet]
        exact named.fresh later grows unknown found global
      · intro text q more read reads
        exact later.reads resolved global read reads more
      · intro rest text q read declares
        obtain ⟨others, last⟩ := after_named rest later
        refine last.refuses ?_ read declares
        rw [List.map_append]
        exact List.mem_append_right _ visible

theorem seen {α : Type} {view : Program → α} {source : String} {v : α}
    (known : (Program.ofSource source).toOption.map view = some v) : ∃ p, Program.ofSource source = .ok p ∧ view p = v := by
  cases parsed : Program.ofSource source with
  | error e =>
    rw [parsed] at known
    cases known
  | ok p =>
    rw [parsed] at known
    exact ⟨p, rfl, Option.some.inj known⟩

-- The division fails, so that the name does not come to its value.
theorem failed_keeps_names_dividing : ∃ t, (new.eval 20 "let a = 1 / 0;").1.fault? = some .divisionByZero ∧
    (new.eval 20 "let a = 1 / 0;").2 = t ∧ t.Visible "a" ∧ (t.eval 3 "a").1 = ⟨.ok (some .null), #[]⟩ ∧
    t.Refuses "let a = 2;" := by
  have fails : (new.eval 20 "let a = 1 / 0;").1.fault? = some .divisionByZero := by decide +kernel
  have quiet : ((new.trail 20 "let a = 1 / 0;").all fun m => m.written?.isNone) = true := by decide +kernel
  have declares : (Program.ofSource "let a = 1 / 0;").toOption.map (·.outside.map Prod.fst) = some ["a"] := by decide +kernel
  have again : (Program.ofSource "let a = 2;").toOption.map (·.outside.map Prod.fst) = some ["a"] := by decide +kernel
  have reads : (Program.ofSource "a").toOption.map Program.read? = some (some "a") := by decide +kernel
  obtain ⟨p, t, parsed, left, visible, -, each⟩ := failed_keeps_names [] 20 "let a = 1 / 0;" .divisionByZero fails
  obtain ⟨p', parsed', declared⟩ := seen declares
  obtain ⟨q, read, declared'⟩ := seen again
  obtain ⟨r, read', reading⟩ := seen reads
  cases parsed.symm.trans parsed'
  have here : "a" ∈ p.outside.map Prod.fst := by simp [declared]
  have there : "a" ∈ q.outside.map Prod.fst := by simp [declared']
  obtain ⟨-, ⟨symbol, -, -, null, value⟩, refuses⟩ := each "a" here
  refine ⟨t, fails, left, (visible "a").mpr (.inr here), ?_, refuses [] _ q read there⟩
  rw [value "a" r 0 read' reading, null]
  intro m present written
  have unwritten := List.all_eq_true.mp quiet m present
  rw [written] at unwritten
  cases unwritten

end Session
end StackScript
