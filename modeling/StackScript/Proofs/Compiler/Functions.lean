import StackScript.Proofs.Compiler.Bodies

-- The layouts of functions, and with them of whole programs.
namespace StackScript.Compiling

def WritesBody (m : Compiling Unit) (layout : Layout) : Prop :=
  ∀ c d, c.Ready → c.fragment = .empty → m c = .ok () d →
    c.Grows d ∧ d.Ready ∧ ∀ k : Finished, k.Completes d 0 → layout k c.point d.point

theorem Writes.body {m : Compiling Unit} {layout : Layout} (writes : Writes m layout) : WritesBody m layout := by
  intro c d ready fresh run
  obtain ⟨grown, done, lies⟩ := writes c d ready run
  have size : c.fragment.code.size = 0 := by simp [fresh, Fragment.empty]
  rw [size] at lies
  exact ⟨grown.toGrows, done, lies⟩

theorem finish_writes {body : List Stmt} (each : ∀ s ∈ body, StatementWrites s) :
    WritesBody (do statements body; finishBody) (Layout.finish body) := by
  intro c e ready fresh run
  obtain ⟨⟨⟩, d, written, finished⟩ := bind_ok.mp run
  rcases List.eq_nil_or_concat body with rfl | ⟨front, s, rfl⟩
  · obtain ⟨-, rfl⟩ := pure_ok.mp written
    rcases finishBody_ok finished with ⟨l, last, -⟩ | ⟨l, last, -⟩ | ⟨-, emitted⟩
    · simp [fresh, Fragment.empty] at last
    · simp [fresh, Fragment.empty] at last
    · rw [Layout.finish]
      exact (emit_writes _ _).body _ _ ready fresh emitted
  · rw [List.concat_eq_append] at written each ⊢
    obtain ⟨b, fronted, last⟩ := statements_snoc_ok.mp written
    have fronts := statements_writes fun t present => (each t (List.mem_append_left _ present)).1
    have mine := each s (by simp)
    obtain ⟨l, remembered, popped, returned⟩ := statement_last last
    rcases finishBody_ok finished with ⟨l', same, opcode, rfl⟩ | ⟨l', same, opcode, rfl⟩ | ⟨other, emitted⟩
    · -- The value of a last expression is given back instead of dropped.
      rw [remembered] at same
      cases same
      obtain ⟨span, v, rfl⟩ := popped.mp opcode
      rw [statement] at last
      obtain ⟨⟨⟩, b', computed, emitted⟩ := bind_ok.mp last
      obtain ⟨bytes, encoded, rfl⟩ := emit_ok.mp emitted
      cases encoded
      have instead : emit .returnValue [] b' = .ok ()
          { b' with fragment := (b'.fragment.append .pop [OpCode.pop.byte]).replaceLast .returnValue } := by
        rw [replaceLast_append]
        rfl
      obtain ⟨grown, done, lies⟩ := (seq_writes fronts (seq_writes (mine.2 span v rfl) (emit_writes .returnValue []))).body
        c _ ready fresh (bind_ok.mpr ⟨(), b, fronted, bind_ok.mpr ⟨(), b', computed, instead⟩⟩)
      refine ⟨grown, done, fun k completes => layout_finish_snoc ?_⟩
      rw [Layout.finish]
      exact lies k completes
    · rw [remembered] at same
      cases same
      obtain ⟨span, v, rfl⟩ := returned.mp opcode
      obtain ⟨grown, done, lies⟩ := (seq_writes fronts mine.1).body c _ ready fresh (bind_ok.mpr ⟨(), b, fronted, last⟩)
      refine ⟨grown, done, fun k completes => layout_finish_snoc ?_⟩
      have here := lies k completes
      rw [Layout.statement] at here
      rw [Layout.finish]
      exact here
    · obtain ⟨noPop, noReturn⟩ := other l remembered
      obtain ⟨grown, done, lies⟩ := (seq_writes fronts (seq_writes mine.1 (emit_writes .returnNull []))).body c e ready fresh
        (bind_ok.mpr ⟨(), b, fronted, bind_ok.mpr ⟨(), d, last, emitted⟩⟩)
      refine ⟨grown, done, fun k completes => layout_finish_snoc ?_⟩
      rw [layout_finish_other (fun value => noPop (popped.mpr value)) (fun back => noReturn (returned.mpr back))]
      exact lies k completes

theorem declareAll_ok {span : Span} {names : List String} {c d : Compiler} {a : Unit} (ready : c.Ready)
    (run : declareAll span names c = .ok a d) :
    c.Grows d ∧ d.Ready ∧ d.fragment = c.fragment ∧ d.constants = c.constants ∧
      c.symbols.Declares names d.symbols := by
  induction names generalizing c with
  | nil =>
    obtain ⟨-, rfl⟩ := pure_ok.mp run
    exact ⟨.refl _, ready, rfl, rfl, rfl⟩
  | cons name rest ih =>
    obtain ⟨symbol, b, defined, others⟩ := bind_ok.mp run
    obtain ⟨grown, middle, fragment, constants, declared, -⟩ := define_extends ready defined
    obtain ⟨further, done, fragments, constants', more⟩ := ih middle others
    exact ⟨grown.toGrows.trans further, done, fragments.trans fragment, constants'.trans constants,
      symbol, b.symbols, declared, more⟩

theorem leave_ok {c d : Compiler} {code : Code} {scope : Scope} {outer around : Scope} {rest : List Scope}
    {f : Fragment} {others : List Fragment} (inside : c.symbols = ⟨outer, around :: rest⟩)
    (open_ : c.enclosing = f :: others) (run : leave c = .ok (code, scope) d) :
    code = c.fragment.code ∧ scope = outer ∧
      d = { c with symbols := ⟨around, rest⟩, fragment := f, enclosing := others } := by
  have closing : c.symbols.leave? = some (outer, ⟨around, rest⟩) := by rw [inside]; rfl
  rw [leave, closing, open_] at run
  cases run
  exact ⟨rfl, rfl, rfl⟩

theorem enterAs_valid {t : SymbolTable} (own : Option (String × Mutability)) (valid : t.Valid) :
    (t.enterAs own).Valid := by
  cases own with
  | none => exact SymbolTable.enter_valid valid
  | some pair => exact SymbolTable.defineItself_valid (SymbolTable.enter_valid valid) (by simp [SymbolTable.enter])

theorem captures_kept {scope around : Scope} {rest : List Scope}
    (valid : SymbolTable.ValidIn scope (around :: rest)) :
    ∀ symbol ∈ scope.captures.toList, SymbolTable.Kept symbol around rest := by
  intro symbol present
  obtain ⟨taken, global, native⟩ := valid.1.taken symbol (by simpa using present)
  refine .inr ⟨?_, taken⟩
  rintro rfl
  rcases Scope.Outermost.outside valid.2 taken with wrong | wrong
  · exact global wrong
  · exact native wrong

def madeFrom (code : Code) (scope : Scope) (parameters : Nat) (span : Span) : Compiling Unit := do
  loadAll scope.captures.toList
  let index ← addConstant (.function ⟨code, parameters, scope.slots⟩) span
  if scope.captures.isEmpty then emit .constant [index]
  else emit .closure [index, scope.captures.size]

def functionSteps (parameters : List String) (span : Span) (body : Compiling Unit) : Compiling Unit := do
  declareAll span parameters
  body
  finishBody
  let (code, scope) ← leave
  checkLimit scope.slots narrow "local bindings" span
  checkLimit scope.captures.size narrow "captured variables" span
  madeFrom code scope parameters.length span

theorem madeFrom_writes {code : Code} {scope : Scope} {parameters : Nat} {span : Span} {c e : Compiler} {a : Unit}
    (ready : c.Ready)
    (kept : ∀ symbol ∈ scope.captures.toList, SymbolTable.Kept symbol c.symbols.innermost c.symbols.enclosing)
    (run : madeFrom code scope parameters span c = .ok a e) :
    c.Extends e ∧ e.Ready ∧ ∀ k : Finished, k.Completes e c.fragment.code.size →
      k.constants[c.constants.size]? = some (.function ⟨code, parameters, scope.slots⟩) ∧
      ∃ m, Layout.reads scope.captures.toList k c.point m ∧
        Layout.instruction (Layout.making c.constants.size scope.captures.size) k
          { m with constants := m.constants + 1 } e.point := by
  obtain ⟨⟨⟩, d, loaded, rest⟩ := bind_ok.mp run
  obtain ⟨index, d', added, emitted⟩ := bind_ok.mp rest
  obtain ⟨-, rfl, rfl⟩ := addConstant_ok.mp added
  obtain ⟨e1, r1, -, constants, lies1⟩ := loadAll_writes _ ready kept loaded
  have written : emit (Layout.making d.constants.size scope.captures.size).opcode
      (Layout.making d.constants.size scope.captures.size).operands
      { d with constants := d.constants.push (.function ⟨code, parameters, scope.slots⟩) } = .ok () e := by
    rw [Layout.making]
    by_cases captureless : scope.captures.size = 0
    · rw [if_pos (by simpa using captureless)] at emitted
      rwa [if_pos captureless]
    · rw [if_neg (by simpa using captureless)] at emitted
      rwa [if_neg captureless]
  have pushed : d.Extends { d with constants := d.constants.push (.function ⟨code, parameters, scope.slots⟩) } :=
    ⟨⟨by simp, .refl _, rfl⟩, Nat.le_refl _, .refl _ _ _⟩
  have middle : Compiler.Ready { d with constants := d.constants.push (.function ⟨code, parameters, scope.slots⟩) } :=
    ⟨r1.symbols, r1.fragment⟩
  obtain ⟨e2, r2, lies2⟩ := emit_writes _ _ _ _ middle written
  refine ⟨(e1.trans pushed).trans e2, r2, fun k completes => ⟨?_, d.point, ?_, ?_⟩⟩
  · rw [← constants]
    exact (completes.toKnows.before e2.toGrows).constant Array.getElem?_push_size
  · exact lies1 k ((completes.before e2).before pushed)
  · have lies := lies2 k (completes.behind e1.size)
    rw [← constants]
    simpa [Compiler.point] using lies

theorem entered_ready (own : Option (String × Mutability)) {c : Compiler} (valid : c.symbols.Valid) : (entered own c).Ready :=
  ⟨enterAs_valid own valid, by intro last nothing; cases nothing⟩

theorem makeFunction_ok {own : Option (String × Mutability)} {parameters : List String} {span : Span}
    {body : Compiling Unit} {c h : Compiler} {a : Unit} (run : makeFunction own parameters span body c = .ok a h) :
    parameters.length ≤ narrow ∧ ∃ d e f g code scope,
      declareAll span parameters (entered own c) = .ok () d ∧
      body d = .ok () e ∧ finishBody e = .ok () f ∧ leave f = .ok (code, scope) g ∧
      scope.slots ≤ narrow ∧ scope.captures.size ≤ narrow ∧
      madeFrom code scope parameters.length span g = .ok () h := by
  rw [makeFunction, bind_ok] at run
  obtain ⟨⟨⟩, _, checked, run⟩ := run
  obtain ⟨few, rfl⟩ := checkLimit_ok.mp checked
  rw [bind_ok] at run
  obtain ⟨⟨⟩, _, entered, run⟩ := run
  cases modify_ok.mp entered
  refine ⟨few, ?_⟩
  -- The name of the function, if it has one, is known inside.
  cases own with
  | none =>
    simp only [bind_ok] at run
    obtain ⟨⟨⟩, d, declared, ⟨⟩, e, written, ⟨⟩, f, finished, ⟨code, scope⟩, g, left, ⟨⟩, g', small, ⟨⟩, g'', fewer,
      run⟩ := run
    obtain ⟨slots, rfl⟩ := checkLimit_ok.mp small
    obtain ⟨captures, rfl⟩ := checkLimit_ok.mp fewer
    exact ⟨d, e, f, g'', code, scope, declared, written, finished, left, slots, captures, by
      simpa only [madeFrom, bind_ok] using run⟩
  | some pair =>
    simp only [bind_ok, modify_ok] at run
    obtain ⟨⟨⟩, _, rfl, ⟨⟩, d, declared, ⟨⟩, e, written, ⟨⟩, f, finished, ⟨code, scope⟩, g, left, ⟨⟩, g', small, ⟨⟩, g'',
      fewer, run⟩ := run
    obtain ⟨slots, rfl⟩ := checkLimit_ok.mp small
    obtain ⟨captures, rfl⟩ := checkLimit_ok.mp fewer
    exact ⟨d, e, f, g'', code, scope, declared, written, finished, left, slots, captures, by
      simpa only [madeFrom, bind_ok] using run⟩

-- What is known when a body is closed: the scope of the function, and that all around it has only grown.
structure Closed (own : Option (String × Mutability)) (c f g : Compiler) (code : Code) (scope : Scope) : Prop where
  written : code = f.fragment.code
  innermost : scope = f.symbols.innermost
  shape : f.symbols.enclosing = g.symbols.innermost :: g.symbols.enclosing
  constants : g.constants = f.constants
  fragment : g.fragment = c.fragment
  inner : SymbolTable.ValidIn scope (g.symbols.innermost :: g.symbols.enclosing)
  ready : g.Ready
  grown : c.Extends g

theorem leave_closes {own : Option (String × Mutability)} {c f g : Compiler} {code : Code} {scope : Scope}
    (grows : (entered own c).Grows f) (left : leave f = .ok (code, scope) g) :
    code = f.fragment.code ∧ scope = f.symbols.innermost ∧
      f.symbols.enclosing = g.symbols.innermost :: g.symbols.enclosing ∧ c.symbols.Grows g.symbols ∧
      g = { f with symbols := g.symbols, fragment := c.fragment, enclosing := c.enclosing } := by
  have open_ : f.enclosing = c.fragment :: c.enclosing := grows.enclosing
  obtain ⟨around, others, shape, outer, beyond⟩ : ∃ around others, f.symbols.enclosing = around :: others ∧
      c.symbols.innermost.Grows around ∧ List.Forall₂ Scope.Grows c.symbols.enclosing others := by
    have chain := grows.symbols.enclosing
    simp only [entered, (c.symbols.enterAs_shape own).1] at chain
    cases equal : f.symbols.enclosing with
    | nil => rw [equal] at chain; cases chain
    | cons around others =>
      rw [equal] at chain
      cases chain with
      | cons first rest => exact ⟨around, others, rfl, first, rest⟩
  have symbols : f.symbols = ⟨f.symbols.innermost, around :: others⟩ := by rw [← shape]
  obtain ⟨rfl, rfl, rfl⟩ := leave_ok symbols open_ left
  exact ⟨rfl, rfl, shape, ⟨outer, beyond⟩, rfl⟩

theorem closed_of {own : Option (String × Mutability)} {c f g : Compiler} {code : Code} {scope : Scope} (ready : c.Ready)
    (grows : (entered own c).Grows f) (done : f.Ready) (left : leave f = .ok (code, scope) g) :
    Closed own c f g code scope := by
  obtain ⟨rfl, rfl, shape, outer, rest⟩ := leave_closes grows left
  have valid : SymbolTable.ValidIn f.symbols.innermost (g.symbols.innermost :: g.symbols.enclosing) := by
    rw [← shape]
    exact done.symbols
  have constants : g.constants = f.constants := by rw [rest]
  have fragment : g.fragment = c.fragment := by rw [rest]
  have enclosing : g.enclosing = c.enclosing := by rw [rest]
  refine ⟨rfl, rfl, shape, constants, fragment, valid, ⟨valid.2, fragment ▸ ready.fragment⟩,
    ⟨⟨constants ▸ grows.constants, outer, enclosing⟩, ?_, ?_⟩⟩
  · exact Nat.le_of_eq (by rw [fragment])
  · rw [fragment]
    exact .refl _ _ _

theorem function_writes (own : Option (String × Mutability)) (parameters : List String) (span : Span)
    {body : List Stmt} (each : ∀ s ∈ body, StatementWrites s) :
    Writes (makeFunction own parameters span (statements body)) (.function own parameters (Layout.finish body)) := by
  intro c h ready run
  obtain ⟨few, d, e, f, g, code, scope, declared, written, finished, left, slots, captures, made⟩ := makeFunction_ok run
  obtain ⟨grown, inside, fragment, constants, declares⟩ := declareAll_ok (entered_ready own ready.symbols) declared
  obtain ⟨further, done, lies⟩ := finish_writes each d f inside fragment (bind_ok.mpr ⟨(), e, written, finished⟩)
  have closed := closed_of ready (grown.trans further) done left
  obtain rfl := closed.written
  obtain rfl := closed.innermost
  obtain ⟨last, finally_, makes⟩ := madeFrom_writes closed.ready (captures_kept closed.inner) made
  rw [closed.fragment] at makes
  refine ⟨closed.grown.trans last, finally_, fun k completes => ?_⟩
  have knows := completes.toKnows.before last.toGrows
  obtain ⟨constant, m, reads, makes⟩ := makes k completes
  rw [closed.constants] at constant makes
  have compiled : (Routine.mk f.fragment.code parameters.length f.symbols.innermost.slots).Compiled f.symbols.innermost
      g.symbols := by
    refine ⟨own, parameters, span, body, c, g, ready.symbols, ?_, rfl, rfl, rfl⟩
    simp only [functionBody, bind_ok]
    exact ⟨(), d, declared, (), e, written, (), f, finished, left⟩
  refine ⟨f.fragment.code, d.symbols, f.point, f.symbols.innermost, g.symbols, m, declares, ?_, rfl, ?_, few,
    slots, captures, compiled, constant, ?_, makes⟩
  · have body := lies (k.inner f.fragment.code f.symbols.innermost)
      ⟨⟨by rw [← closed.constants]; exact knows.constants, ?_, fun _ => Nat.le_refl _, List.prefix_rfl, ?_⟩, .refl _ _ _⟩
    · simpa [Compiler.point, constants, fragment, entered, Fragment.empty] using body
    · rw [SymbolTable.isGlobal, closed.shape]
      rfl
    · have globals := knows.globals
      rw [SymbolTable.globals, closed.shape]
      exact globals
  · rw [Compiler.point, SymbolTable.leave?, closed.shape]
  · simpa [Compiler.point, closed.constants, closed.fragment] using reads

end StackScript.Compiling
