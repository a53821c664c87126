import StackScript.Proofs.Compiler.Scoping
import StackScript.Proofs.Scope.Outside
import StackScript.Proofs.Session.Lets

-- The names that a session has are those that its texts declare outside of their functions. They come with compiling, not
-- with running: what a run gives are the values.
namespace StackScript.Session

-- Whether a name stands for a global slot in later texts.
def Visible (s : Session) (x : String) : Prop := ∃ symbol u, s.symbols.resolve x = .ok (symbol, u) ∧ symbol.storage = .global

-- A text that does not compile, and so changes nothing.
def Refuses (s : Session) (source : String) : Prop :=
  ∀ budget, ∃ e, ¬ e.InRun ∧ s.eval budget source = (⟨.error e, #[]⟩, s)

-- A session with these names. A slot without a name is not used yet.
structure Named (s : Session) (names : List (String × Mutability)) : Prop extends s.Rooted where
  stands : s.symbols.Stands ⟨[], names⟩
  distinct : (names.map Prod.fst).Nodup
  few : s.symbols.innermost.slots ≤ 65536
  idle : ∀ i, ¬ s.symbols.innermost.Has (.global i) → s.globals[i]?.getD .null = .null

section
variable {s : Session} {names more : List (String × Mutability)} {x : String} {p : Program} {c : Compiler} {source : String}

theorem new_named : new.Named [] := ⟨new_rooted, Compiler.new_stands.symbols, List.nodup_nil, Nat.zero_le _, fun _ _ => rfl⟩

theorem new_apart (distinct : ((more ++ names).map Prod.fst).Nodup) (new : x ∈ more.map Prod.fst) :
    x ∉ names.map Prod.fst := by
  rw [List.map_append] at distinct
  intro known
  exact (List.nodup_append.mp distinct).2.2 x new x known rfl

theorem Named.visible (named : s.Named names) (x : String) : s.Visible x ↔ x ∈ names.map Prod.fst := by
  rw [← named.stands.global_iff named.main]
  constructor
  · rintro ⟨symbol, u, resolved, global⟩
    exact ⟨symbol, ((SymbolTable.resolve_outside named.main).mp resolved).1, global⟩
  · rintro ⟨symbol, found, global⟩
    exact ⟨symbol, _, (SymbolTable.resolve_outside named.main).mpr ⟨found, rfl⟩, global⟩

-- A program that compiles uses the names as it may, and adds those that it declares outside of its functions.
theorem Named.compile (named : s.Named names) (run : (Compiler.resume s.symbols s.constants).compile p = .ok () c) :
    c.symbols.Stands ⟨[], p.outside ++ names⟩ ∧ ((p.outside ++ names).map Prod.fst).Nodup := by
  have judges := Compiling.statements_judges (Compiling.body_judges false p.statements)
  have agrees := judges.agrees (Compiler.resume s.symbols s.constants) ⟨[], names⟩ ⟨named.stands, rfl⟩ rfl
  change Compiling.Agrees _ p.acts ((Compiler.resume s.symbols s.constants).compile p) at agrees
  rw [run] at agrees
  obtain ⟨correct, later⟩ := agrees
  have main := (start_sound named.toSound run).2.1
  have outside : (⟨[], names⟩ : Scopes).afterAll p.acts = ⟨[], p.outside ++ names⟩ := by
    have functions := later.symbols.main main
    have beyond := Scopes.afterAll_beyond [] [] names p.acts
    rw [List.nil_append] at beyond
    rw [beyond] at functions ⊢
    exact congrArg (Scopes.mk · _) functions
  have distinct := Scopes.afterAll_distinct correct named.distinct
  rw [outside] at distinct
  exact ⟨outside ▸ later.symbols, distinct⟩

theorem Named.slots (named : s.Named names) (run : (Compiler.resume s.symbols s.constants).compile p = .ok () c) :
    c.symbols.innermost.slots ≤ 65536 := by
  have counts {t : SymbolTable} (main : t.enclosing = []) :
      SymbolTable.SmallInside t.counts ↔ t.innermost.slots ≤ 65536 := by
    rw [SymbolTable.counts, main]
    rfl
  have limited := Compiling.statements_limited (Compiling.body_writes p.statements) (Compiling.body_limited p.statements)
  have kept := limited _ (Compiler.resume_ready named.symbols s.constants) ((counts named.main).mpr named.few)
  rw [Compiler.compile] at run
  rw [Compiling.Keeps, run] at kept
  exact (counts (start_sound named.toSound run).2.1).mp kept.1

theorem Named.refuses (named : s.Named names) (known : x ∈ names.map Prod.fst)
    (parsed : Program.ofSource source = .ok p) (declares : x ∈ p.outside.map Prod.fst) : s.Refuses source := by
  cases result : s.compiled source with
  | error e =>
    intro budget
    exact ⟨e, compiled_error result, by rw [eval_eq, result]⟩
  | ok c =>
    obtain ⟨q, read, run⟩ := compiled_iff.mp result
    cases parsed.symm.trans read
    exact absurd known (new_apart (named.compile run).2 declares)

theorem trail_idle (rooted : s.Rooted) (budget : Nat) (source : String) {i : Nat}
    (free : ¬ (s.eval budget source).2.symbols.innermost.Has (.global i)) :
    ∀ m ∈ s.trail budget source, m.written? ≠ some (.global i) := by
  have later := (eval_run rooted budget source).2.1
  have fixed : (s.eval budget source).2.symbols.Fixed (.global i) := by
    intro symbol knows slot
    have found := knows.outside (SymbolTable.ValidIn.fits later.symbols) (.inl (Symbol.slot_global.mp slot).1)
    rw [later.main] at found
    exact absurd ⟨symbol, found, slot⟩ free
  exact fun m present written => free (trail_declares rooted fixed present written).2

theorem Named.eval (named : s.Named names) (budget : Nat) (run : s.compiled source = .ok c) :
    ∃ p, Program.ofSource source = .ok p ∧ (s.eval budget source).2.Named (p.outside ++ names) := by
  obtain ⟨p, parsed, compiled⟩ := compiled_iff.mp run
  obtain ⟨grows, rooted, -⟩ := eval_run named.toRooted budget source
  obtain ⟨stands, distinct⟩ := named.compile compiled
  have symbols : (s.eval budget source).2.symbols = c.symbols := by rw [eval_state, run]
  refine ⟨p, parsed, rooted, symbols ▸ stands, distinct, symbols ▸ named.slots compiled, ?_⟩
  intro i free
  rw [eval_unwritten s budget source (trail_idle named.toRooted budget source free)]
  exact named.idle i fun has => free (has.grows grows.innermost)

theorem after_named (inputs : List (Nat × String)) (named : s.Named names) :
    ∃ more, (s.after inputs).Named (more ++ names) := by
  refine after_keeps (fun t => ∃ more, t.Named (more ++ names)) ?_ inputs ⟨[], named⟩
  rintro t budget source ⟨more, named⟩
  cases result : t.compiled source with
  | error e => exact ⟨more, by rwa [eval_state, result]⟩
  | ok c =>
    obtain ⟨p, -, later⟩ := named.eval budget result
    exact ⟨p.outside ++ more, by rwa [List.append_assoc]⟩

end

end StackScript.Session
