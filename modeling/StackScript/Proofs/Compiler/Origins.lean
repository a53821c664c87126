import StackScript.Proofs.Compiler.Fixed

-- Every function among the constants was compiled from some body, and its code gives its parameters no values, each fixed
-- name of its own at most one, and the fixed names of the program none.
namespace StackScript

namespace SymbolTable

def within (around : SymbolTable) (scope : Scope) : SymbolTable := ⟨scope, around.innermost :: around.enclosing⟩

def outermost (t : SymbolTable) : Scope := outermostIn t.innermost t.enclosing

variable {t u around : SymbolTable} {scope : Scope} {n : Nat}

theorem Grows.outermost (grows : t.Grows u) : t.outermost.Grows u.outermost :=
  outermostIn_grows grows.innermost grows.enclosing

theorem fixed_global (valid : t.Valid) (fixed : u.Fixed (.global n)) (grows : t.outermost.Grows u.outermost) :
    t.Fixed (.global n) := by
  intro symbol knows slot
  have outside := knows.outside (ValidIn.fits valid) (.inl (Symbol.slot_global.mp slot).1)
  exact fixed symbol (.inl (grows.declared _ _ outside (Symbol.slot_kept slot))) slot

theorem Declares.slots {names : List String} (valid : t.Valid) (nested : t.isGlobal = false) (declares : t.Declares names u)
    {i : Nat} (below : i < names.length) : ∃ symbol : Symbol, u.innermost.symbols[symbol.name]? = some symbol ∧
      symbol.slot? = some (.frame (t.innermost.slots + i)) ∧ symbol.mutability = .fixed := by
  induction names generalizing t i with
  | nil => exact absurd below (Nat.not_lt_zero i)
  | cons name rest ih =>
    obtain ⟨symbol, v, defined, others⟩ := declares
    have grown := define_valid valid defined
    have grows := define_grows defined
    have further := (others.grows grown).2.1
    have here := define_here defined
    obtain ⟨-, rfl, rfl⟩ := define_ok defined
    cases i with
    | zero =>
      have slot : (⟨name, t.innermost.slots, .fixed, if t.isGlobal then .global else .frame⟩ : Symbol).slot? =
          some (.frame t.innermost.slots) := by simp [Symbol.slot?, nested]
      exact ⟨_, further.innermost.declared _ _ here (Symbol.slot_kept slot), slot, rfl⟩
    | succ i =>
      obtain ⟨symbol, found, slot, fixed⟩ := ih grown (by rw [grows.isGlobal, nested]) others (Nat.lt_of_succ_lt_succ below)
      refine ⟨symbol, found, ?_, fixed⟩
      rw [slot]
      simp only [Nat.add_right_comm _ 1, Nat.add_assoc]

end SymbolTable

theorem Compiling.finished_most {body : List Stmt} {d f : Compiler} (inside : d.Ready) (fresh : d.fragment = .empty)
    (nested : d.symbols.isGlobal = false) (run : (do statements body; finishBody) d = .ok () f) {s : Slot}
    (fixed : f.symbols.Fixed s) :
    f.fragment.code.AtMost s (f.symbols.innermost.holders s - d.symbols.innermost.holders s) 0 := by
  obtain ⟨further, -, lies⟩ := finish_writes (body_writes body) d f inside fresh run
  let k : Finished := ⟨f.fragment.code, f.constants, f.symbols.innermost.slots, f.symbols.innermost.captures.toList,
    f.symbols.globals, true⟩
  have complete : k.Completes f 0 := by
    refine ⟨⟨List.prefix_rfl, ?_, fun _ => Nat.le_refl _, List.prefix_rfl, Nat.le_refl _⟩, .refl _ _ _⟩
    rw [further.symbols.isGlobal, nested]
    rfl
  obtain ⟨m, i, height, balanced, ends, item, last⟩ := Layout.finish_returns (fun s _ => Layout.statement_adds s) k _ _ 0
    (lies k complete)
  have symbols : f.symbols = m.symbols := congrArg Point.symbols last
  have enough := Nat.le_refl (f.symbols.innermost.holders s)
  rw [symbols] at fixed enough ⊢
  have returns : i.opcode = .returnValue ∨ i.opcode = .returnNull := by
    rcases ends with ⟨rfl, -⟩ | ⟨rfl, -⟩
    · exact .inl rfl
    · exact .inr rfl
  have start : d.point.position = 0 := by simp [Compiler.point, fresh, Fragment.empty]
  have most := balanced.atMost (fun plain => by cases plain) inside.symbols fixed enough (.returns item returns)
  rwa [start] at most

namespace Routine.Compiled

variable {r : Routine} {scope : Scope} {around : SymbolTable} {s : Slot}

theorem opens (compiled : r.Compiled scope around) : (around.within scope).Valid ∧ r.locals = scope.slots ∧
    ∃ start : SymbolTable, start.Grows (around.within scope) ∧
      (∀ i, i < r.parameters → ∃ symbol : Symbol, start.innermost.symbols[symbol.name]? = some symbol ∧
        symbol.slot? = some (.frame i) ∧ symbol.mutability = .fixed) ∧
      ∀ s, (around.within scope).Fixed s → r.code.AtMost s (scope.holders s - start.innermost.holders s) 0 := by
  obtain ⟨own, parameters, span, body, c, g, valid, run, count, locals, rfl⟩ := compiled
  simp only [Compiling.functionBody, Compiling.bind_ok] at run
  obtain ⟨⟨⟩, d, declared, ⟨⟩, e, written, ⟨⟩, f, finished, left⟩ := run
  obtain ⟨grown, inside, fragment, constants, declares⟩ := Compiling.declareAll_ok (Compiling.entered_ready own valid) declared
  have finishing : (do Compiling.statements body; Compiling.finishBody) d = .ok () f :=
    Compiling.bind_ok.mpr ⟨(), e, written, finished⟩
  obtain ⟨further, done, -⟩ := Compiling.finish_writes (Compiling.body_writes body) d f inside fragment finishing
  obtain ⟨code, rfl, shape, -⟩ := Compiling.leave_closes (grown.trans further) left
  have same : g.symbols.within f.symbols.innermost = f.symbols := by
    rw [SymbolTable.within, ← shape]
  have global : (Compiling.entered own c).symbols.isGlobal = false := by
    rw [SymbolTable.isGlobal, Compiling.entered, (c.symbols.enterAs_shape own).1]
    rfl
  rw [same, code]
  refine ⟨done.symbols, locals, d.symbols, further.symbols, fun j below => ?_, fun s fixed => ?_⟩
  · have first := (c.symbols.enterAs_shape own).2
    have slots := declares.slots (Compiling.entered_ready own valid).symbols global (count ▸ below)
    simpa only [Compiling.entered, first, Nat.zero_add] using slots
  · have nested : d.symbols.isGlobal = false := by rw [grown.symbols.isGlobal, global]
    exact Compiling.finished_most inside fragment nested finishing fixed

theorem parameter_never {i : Nat} (compiled : r.Compiled scope around) (below : i < r.parameters) :
    i < r.locals ∧ r.code.AtMost (.frame i) 0 0 := by
  obtain ⟨valid, locals, start, grows, parameters, most⟩ := compiled.opens
  obtain ⟨symbol, first, slot, fixed⟩ := parameters i below
  have found : scope.symbols[symbol.name]? = some symbol := grows.innermost.declared _ _ first (Symbol.slot_kept slot)
  have index : symbol.index = i := (Symbol.slot_frame.mp slot).2
  have inside := SymbolTable.index_below valid found slot
  have here := most _ (.of_known valid (.here found) slot fixed)
  rw [Scope.holders_of_has ⟨symbol, first, slot⟩, Nat.sub_eq_zero_of_le (scope.holders_le_one _)] at here
  exact ⟨by rw [← index, locals]; exact inside, here⟩

theorem fixed_once {x : String} {symbol : Symbol} (compiled : r.Compiled scope around)
    (found : scope.symbols[x]? = some symbol) (frame : symbol.storage = .frame) (fixed : symbol.mutability = .fixed) :
    symbol.index < r.locals ∧ r.code.AtMost (.frame symbol.index) 1 0 := by
  obtain ⟨valid, locals, start, -, -, most⟩ := compiled.opens
  have named : symbol.name = x := SymbolTable.ValidIn.named valid found
  have slot : symbol.slot? = some (.frame symbol.index) := Symbol.slot_frame.mpr ⟨frame, rfl⟩
  rw [← named] at found
  have inside := SymbolTable.index_below valid found slot
  have here := most _ (.of_known valid (.here found) slot fixed)
  exact ⟨locals ▸ inside, here.mono (Nat.le_trans (Nat.sub_le _ _) (scope.holders_le_one _))⟩

theorem global_never {u : SymbolTable} {n : Nat} (compiled : r.Compiled scope around)
    (grows : around.outermost.Grows u.outermost) (fixed : u.Fixed (.global n)) : r.code.AtMost (.global n) 0 0 := by
  obtain ⟨valid, -, start, -, -, most⟩ := compiled.opens
  have here := most _ (SymbolTable.fixed_global valid fixed grows)
  have lacks : ¬ scope.Has (.global n) := by
    rintro ⟨symbol, found, slot⟩
    have inside : scope.Inside around.innermost := valid.1
    exact (inside.not_outside found).1 (Symbol.slot_global.mp slot).1
  rw [Scope.holders_of_not lacks, Nat.zero_sub] at here
  exact here

end Routine.Compiled

-- A function that was compiled when the program had declared no more than some global names.
def Routine.From (r : Routine) (globals : Scope) : Prop :=
  ∃ scope around, r.Compiled scope around ∧ around.outermost.Grows globals

theorem Routine.From.grows {r : Routine} {globals later : Scope} (origin : r.From globals) (grows : globals.Grows later) :
    r.From later := by
  obtain ⟨scope, around, compiled, before⟩ := origin
  exact ⟨scope, around, compiled, before.trans grows⟩

namespace Balanced

-- Every function that a piece of code adds to the constants was compiled from a body.
theorem origins {k : Finished} {p q : Point} {a b : Nat} (balanced : Balanced k p a q b) (sound : k.Sound)
    (valid : p.symbols.Valid) {n : Nat} {r : Routine} (behind : p.constants ≤ n) (below : n < q.constants)
    (present : k.constants[n]? = some (.function r)) : r.From q.symbols.outermost := by
  induction balanced with
  | nothing => exact absurd behind (Nat.not_le_of_lt below)
  | @seq k p m q a b c left right first second =>
    have segment := left.segment sound valid
    by_cases early : n < m.constants
    · exact (first sound valid behind early present).grows (right.segment sound segment.valid).grows.outermost
    · exact second sound segment.valid (Nat.le_of_not_lt early) below present
  | plain effect lies =>
    rw [lies.2] at below
    exact absurd behind (Nat.not_le_of_lt below)
  | constant literal lies =>
    obtain ⟨known, -, rfl⟩ := lies
    cases Nat.le_antisymm behind (Nat.le_of_lt_succ below)
    rw [present] at known
    cases known
    exact literal.elim
  | resolve => exact absurd behind (Nat.not_le_of_lt below)
  | read lies =>
    rw [lies.2.2] at below
    exact absurd behind (Nat.not_le_of_lt below)
  | assign _ _ _ lies =>
    rw [lies.2] at below
    exact absurd behind (Nat.not_le_of_lt below)
  | bind _ lies =>
    rw [lies.2.2] at below
    exact absurd behind (Nat.not_le_of_lt below)
  | bindEarly defined _ lies value =>
    obtain ⟨-, -, rfl⟩ := lies
    exact value sound (SymbolTable.define_valid valid defined) behind below present
  | @choice k p a b c d q h first skip second leap third one two three =>
    have left := first.segment sound valid
    obtain ⟨-, rfl⟩ := skip
    have middle := second.segment sound left.valid
    obtain ⟨-, rfl⟩ := leap
    have last := (third.segment sound middle.valid).grows.outermost
    by_cases early : n < a.constants
    · exact (one sound valid behind early present).grows (middle.grows.outermost.trans last)
    · by_cases between : n < c.constants
      · exact (two sound left.valid (Nat.le_of_not_lt early) between present).grows last
      · exact three sound middle.valid (Nat.le_of_not_lt between) below present
  | @function k p q m e last own parameters code scope first table i height h declares inner ends ret size left few slots
      captures compiled made loading same making body reads =>
    have entered := declares.entered valid
    have inside := inner.segment (fun plain => by cases plain) entered
    obtain ⟨-, rfl⟩ := ret
    obtain ⟨innermost, enclosing, around, -⟩ := declares.leave_shape valid inside.grows inside.valid left
    obtain ⟨-, rfl⟩ := making
    have later : table.outermost.Grows m.symbols.outermost := (loading.segment sound around).grows.outermost
    by_cases early : n < e.constants
    · have nested := body (fun plain => by cases plain) entered behind early present
      rw [SymbolTable.outermost, enclosing] at nested
      exact nested.grows later
    · rw [same] at below
      cases Nat.le_antisymm (Nat.le_of_not_lt early) (Nat.le_of_lt_succ below)
      cases present.symm.trans made
      exact ⟨scope, table, compiled, later⟩

end Balanced

theorem Compiler.compile_most {symbols : SymbolTable} {constants : Array Value} {p : Program} {c : Compiler} {s : Slot}
    (valid : symbols.Valid) (main : symbols.enclosing = []) (run : (resume symbols constants).compile p = .ok () c)
    (fixed : c.symbols.Fixed s) :
    c.fragment.code.AtMost s (c.symbols.innermost.holders s - symbols.innermost.holders s) 0 := by
  obtain ⟨-, -, -, lies⟩ := compile_lies (resume_ready valid constants) main run
  have balanced := Layout.statements_adds p.statements _ _ _ 0 lies
  have behind : c.fragment.code.itemAt c.fragment.code.size = .nothing := by simp [Code.itemAt]
  exact balanced.atMost (fun _ => rfl) valid fixed (Nat.le_refl _) (.ends behind)

-- All functions that a compiler knows, it has compiled itself or found.
theorem Compiler.compile_origins {symbols : SymbolTable} {constants : Array Value} {p : Program} {c : Compiler}
    (valid : symbols.Valid) (main : symbols.enclosing = []) (run : (resume symbols constants).compile p = .ok () c)
    (before : ∀ r, .function r ∈ constants → r.From symbols.outermost) :
    ∀ r, .function r ∈ c.constants → r.From c.symbols.outermost := by
  obtain ⟨grown, -, -, lies⟩ := compile_lies (resume_ready valid constants) main run
  have balanced := Layout.statements_adds p.statements _ _ _ 0 lies
  have each := grown.each (fun v => ∀ r, v = .function r → r.From c.symbols.outermost)
    (fun v present r same => (before r (same ▸ present)).grows grown.symbols.outermost)
    fun n v behind below present r same =>
      balanced.origins (fun _ => rfl) valid behind below (same ▸ present)
  exact fun r present => each _ present r rfl

end StackScript
