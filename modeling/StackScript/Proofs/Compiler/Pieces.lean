import StackScript.Proofs.Compiler.Writing

-- The layouts of the pieces that code is made of.
namespace StackScript.Compiling

-- What a step that succeeds does to what is written, in terms of a layout.
def Writes (m : Compiling Unit) (layout : Layout) : Prop :=
  ∀ c d, c.Ready → m c = .ok () d →
    c.Extends d ∧ d.Ready ∧ ∀ k : Finished, k.Completes d c.fragment.code.size → layout k c.point d.point

theorem nothing_writes : Writes (pure ()) Layout.nothing := by
  intro c d ready run
  obtain ⟨-, rfl⟩ := pure_ok.mp run
  exact ⟨.refl _, ready, fun _ _ => rfl⟩

theorem seq_writes {m n : Compiling Unit} {first second : Layout} (one : Writes m first) (two : Writes n second) :
    Writes (m >>= fun _ => n) (first.seq second) := by
  intro c e ready run
  obtain ⟨⟨⟩, d, left, right⟩ := bind_ok.mp run
  obtain ⟨grown, middle, lies⟩ := one c d ready left
  obtain ⟨further, done, rest⟩ := two d e middle right
  refine ⟨grown.trans further, done, fun k completes => ?_⟩
  exact ⟨d.point, lies k (completes.before further), rest k (completes.behind grown.size)⟩

theorem Fragment.append_tidy (f : Fragment) (op : OpCode) {bytes : List UInt8} (filled : bytes ≠ []) :
    (f.append op bytes).Tidy := by
  intro last equal
  have length := List.length_pos_iff.mpr filled
  cases equal
  simp only [Fragment.append, Code.size_append]
  omega

theorem encode_filled {i : Instruction} {bytes : List UInt8} (encoded : i.encode = .ok bytes) : bytes ≠ [] := by
  intro empty
  have length := Instruction.encode_length encoded
  rw [empty, List.length_nil] at length
  have := i.opcode.width_pos
  omega

theorem emit_extends {op : OpCode} {operands : List Nat} {c d : Compiler} {a : Unit} (ready : c.Ready)
    (run : emit op operands c = .ok a d) :
    c.Extends d ∧ d.Ready ∧ d.symbols = c.symbols ∧ d.constants = c.constants ∧
    d.fragment.code.size = c.fragment.code.size + op.width ∧
    d.fragment.last = some ⟨op, c.fragment.code.size⟩ ∧
    ∀ code : Code, code.Same d.fragment.code c.fragment.code.size d.fragment.code.size →
      code.itemAt c.fragment.code.size = .instruction ⟨op, operands⟩ := by
  obtain ⟨bytes, encoded, rfl⟩ := emit_ok.mp run
  have length := Instruction.encode_length encoded
  have size : (c.fragment.append op bytes).code.size = c.fragment.code.size + op.width := by
    simp [Fragment.append, length]
  refine ⟨⟨⟨List.prefix_rfl, .refl _, rfl⟩, ?_, ?_⟩, ⟨ready.symbols, ?_⟩, rfl, rfl, size, rfl, ?_⟩
  · simp [Fragment.append]
  · exact Code.append_same _ _
  · exact Fragment.append_tidy _ _ (encode_filled encoded)
  · intro code same
    have held := Code.Holds.of_same same (Nat.le_refl _) (Nat.le_of_eq (by rw [length]; exact size.symm))
      (Code.append_holds _ bytes)
    exact Code.itemAt_holds encoded held

theorem emit_writes (op : OpCode) (operands : List Nat) : Writes (emit op operands) (.instruction ⟨op, operands⟩) := by
  intro c d ready run
  obtain ⟨grown, done, symbols, constants, size, -, lies⟩ := emit_extends ready run
  refine ⟨grown, done, fun k completes => ⟨lies k.code completes.code, ?_⟩⟩
  simp [Compiler.point, symbols, constants, size]

theorem emitConstant_writes (v : Value) (span : Span) : Writes (emitConstant v span) (.constant v) := by
  intro c e ready run
  obtain ⟨index, d, added, emitted⟩ := bind_ok.mp run
  obtain ⟨-, rfl, rfl⟩ := addConstant_ok.mp added
  have ready' : Compiler.Ready { c with constants := c.constants.push v } := ⟨ready.symbols, ready.fragment⟩
  obtain ⟨grown, done, lies⟩ := emit_writes _ _ _ _ ready' emitted
  have pushed : c.Extends { c with constants := c.constants.push v } :=
    ⟨⟨by simp, .refl _, rfl⟩, Nat.le_refl _, .refl _ _ _⟩
  refine ⟨pushed.trans grown, done, fun k completes => ⟨?_, ?_⟩⟩
  · exact (completes.toKnows.before grown.toGrows).constant (Array.getElem?_push_size)
  · have lies := lies k completes
    simpa [Compiler.point] using lies

theorem load_eq (symbol : Symbol) : load symbol = emit symbol.reading.opcode symbol.reading.operands := by
  rw [load, Symbol.reading]
  cases symbol.storage <;> rfl

theorem load_writes (symbol : Symbol) {c d : Compiler} {a : Unit} (ready : c.Ready)
    (kept : SymbolTable.Kept symbol c.symbols.innermost c.symbols.enclosing) (run : load symbol c = .ok a d) :
    c.Extends d ∧ d.Ready ∧ d.symbols = c.symbols ∧ d.constants = c.constants ∧
      ∀ k : Finished, k.Completes d c.fragment.code.size → Layout.read symbol k c.point d.point := by
  rw [load_eq] at run
  obtain ⟨grown, done, symbols, constants, -⟩ := emit_extends ready run
  exact ⟨grown, done, symbols, constants, fun k completes =>
    ⟨(completes.toKnows.before grown.toGrows).within ready.symbols kept,
      (emit_writes _ _ _ _ ready run).2.2 k completes⟩⟩

theorem loadAll_writes (symbols : List Symbol) {c d : Compiler} {a : Unit} (ready : c.Ready)
    (kept : ∀ symbol ∈ symbols, SymbolTable.Kept symbol c.symbols.innermost c.symbols.enclosing)
    (run : loadAll symbols c = .ok a d) :
    c.Extends d ∧ d.Ready ∧ d.symbols = c.symbols ∧ d.constants = c.constants ∧
      ∀ k : Finished, k.Completes d c.fragment.code.size → Layout.reads symbols k c.point d.point := by
  induction symbols generalizing c with
  | nil =>
    obtain ⟨-, rfl⟩ := pure_ok.mp run
    exact ⟨.refl _, ready, rfl, rfl, fun _ _ => rfl⟩
  | cons symbol rest ih =>
    obtain ⟨⟨⟩, b, first, others⟩ := bind_ok.mp run
    obtain ⟨grown, middle, table, constants, lies⟩ := load_writes symbol ready (kept symbol List.mem_cons_self) first
    obtain ⟨further, done, table', constants', more⟩ := ih middle
      (by rw [table]; exact fun s present => kept s (List.mem_cons_of_mem _ present)) others
    refine ⟨grown.trans further, done, table'.trans table, constants'.trans constants, fun k completes => ?_⟩
    exact ⟨b.point, lies k (completes.before further), more k (completes.behind grown.size)⟩

theorem resolve_extends {name : String} {span : Span} {c d : Compiler} {symbol : Symbol} (ready : c.Ready)
    (run : resolve name span c = .ok symbol d) :
    c.Extends d ∧ d.Ready ∧ d.fragment = c.fragment ∧ d.constants = c.constants ∧
      c.symbols.resolve name = .ok (symbol, d.symbols) ∧
      SymbolTable.Kept symbol d.symbols.innermost d.symbols.enclosing := by
  obtain ⟨table, found, rfl⟩ := resolve_ok.mp run
  have resolved := SymbolTable.resolve_resolved ready.symbols found
  exact ⟨c.extends_symbols resolved.table, ⟨resolved.valid, ready.fragment⟩, rfl, rfl, found, resolved.kept⟩

theorem name_writes (x : String) (span : Span) : Writes (do load (← resolve x span)) (.name x) := by
  intro c e ready run
  obtain ⟨symbol, d, found, loaded⟩ := bind_ok.mp run
  obtain ⟨grown, middle, fragment, constants, resolved, kept⟩ := resolve_extends ready found
  obtain ⟨further, done, -, -, lies⟩ := load_writes symbol middle kept loaded
  refine ⟨grown.trans further, done, fun k completes => ⟨symbol, d.symbols, resolved, ?_⟩⟩
  rw [fragment] at lies
  simpa only [Compiler.point, fragment, constants] using lies k completes

theorem assignTo_writes (x : String) (span : Span) : Writes (assignTo x span) (.assign x) := by
  intro c e ready run
  obtain ⟨symbol, d, found, rest⟩ := bind_ok.mp run
  obtain ⟨grown, middle, fragment, constants, resolved, kept⟩ := resolve_extends ready found
  have emitted : ∃ i, symbol.assigning? = some i ∧ emit i.opcode i.operands d = .ok () e := by
    cases mutability : symbol.mutability <;> cases storage : symbol.storage <;>
      simp only [mutability, storage] at rest
    case assignable.global => exact ⟨_, by rw [Symbol.assigning?, mutability, storage], rest⟩
    case assignable.frame => exact ⟨_, by rw [Symbol.assigning?, mutability, storage], rest⟩
    all_goals cases rest
  obtain ⟨i, assigning, written⟩ := emitted
  obtain ⟨further, done, lies⟩ := emit_writes _ _ _ _ middle written
  refine ⟨grown.trans further, done, fun k completes => ⟨symbol, d.symbols, i, resolved, assigning, ?_, ?_⟩⟩
  · exact (completes.toKnows.before further.toGrows).within middle.symbols kept
  · rw [fragment] at lies
    simpa only [Compiler.point, fragment, constants] using lies k completes

end StackScript.Compiling
