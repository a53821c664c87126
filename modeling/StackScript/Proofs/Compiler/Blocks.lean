import StackScript.Proofs.Compiler.Pieces

-- The layouts of declarations, of jumps over code, and of functions.
namespace StackScript.Compiling

theorem define_extends {name : String} {mutability : Mutability} {span : Span} {c d : Compiler} {symbol : Symbol}
    (ready : c.Ready) (run : define name mutability span c = .ok symbol d) :
    c.Extends d ∧ d.Ready ∧ d.fragment = c.fragment ∧ d.constants = c.constants ∧
      c.symbols.define name mutability = .ok (symbol, d.symbols) ∧
      SymbolTable.Kept symbol d.symbols.innermost d.symbols.enclosing := by
  obtain ⟨table, defined, rfl⟩ := define_ok.mp run
  refine ⟨c.extends_symbols (SymbolTable.define_grows defined),
    ⟨SymbolTable.define_valid ready.symbols defined, ready.fragment⟩, rfl, rfl, defined, ?_⟩
  obtain ⟨-, rfl, rfl⟩ := SymbolTable.define_ok defined
  cases shape : c.symbols.enclosing with
  | nil => exact .inl (by simp [SymbolTable.outermostIn])
  | cons around rest => exact .inr ⟨by simp, by simp⟩

theorem store_writes {symbol : Symbol} {span : Span} {c d : Compiler} {a : Unit} (ready : c.Ready)
    (run : store symbol span c = .ok a d) :
    c.Extends d ∧ d.Ready ∧ d.fragment.last = some ⟨symbol.setting.opcode, c.fragment.code.size⟩ ∧
      ∀ k : Finished, k.Completes d c.fragment.code.size →
        Layout.instruction symbol.setting k c.point d.point := by
  have emitted : emit symbol.setting.opcode symbol.setting.operands c = .ok () d := by
    rw [store] at run
    rw [Symbol.setting]
    split at run
    · rename_i global
      obtain ⟨⟨⟩, b, checked, emitted⟩ := bind_ok.mp run
      obtain ⟨-, rfl⟩ := checkLimit_ok.mp checked
      rwa [if_pos global]
    · rename_i other
      obtain ⟨⟨⟩, b, checked, emitted⟩ := bind_ok.mp run
      obtain ⟨-, rfl⟩ := checkLimit_ok.mp checked
      rwa [if_neg other]
  obtain ⟨grown, done, -, -, -, last, -⟩ := emit_extends ready emitted
  exact ⟨grown, done, last, (emit_writes _ _ _ _ ready emitted).2.2⟩

theorem bind_writes (x : String) (mutability : Mutability) (span : Span) :
    Writes (do store (← define x mutability span) span) (.bind x mutability) := by
  intro c e ready run
  obtain ⟨symbol, d, defined, stored⟩ := bind_ok.mp run
  obtain ⟨grown, middle, fragment, constants, declared, kept⟩ := define_extends ready defined
  obtain ⟨further, done, -, lies⟩ := store_writes middle stored
  refine ⟨grown.trans further, done, fun k completes => ⟨symbol, d.symbols, declared, ?_, ?_⟩⟩
  · exact (completes.toKnows.before further.toGrows).within middle.symbols kept
  · rw [fragment] at lies
    simpa only [Compiler.point, fragment, constants] using lies k completes

-- The value of a name that is declared first is compiled where the name is known. It leaves the name's place as it is.
theorem bindEarly_writes (x : String) (mutability : Mutability) (span : Span) {value : Compiling Unit} {layout : Layout}
    (writes : Writes value layout) :
    Writes (do let symbol ← define x mutability span; value; store symbol span) (.bindEarly x mutability layout) := by
  intro c f ready run
  obtain ⟨symbol, d, defined, rest⟩ := bind_ok.mp run
  obtain ⟨⟨⟩, e, written, stored⟩ := bind_ok.mp rest
  obtain ⟨grown, middle, fragment, constants, declared, kept⟩ := define_extends ready defined
  obtain ⟨further, almost, inner⟩ := writes d e middle written
  obtain ⟨last, done, -, lies⟩ := store_writes almost stored
  refine ⟨(grown.trans further).trans last, done, fun k completes => ⟨symbol, d.symbols, e.point, declared, ?_, ?_, ?_⟩⟩
  · rw [fragment] at inner
    simpa only [Compiler.point, fragment, constants] using inner k (completes.before last)
  · exact ((completes.toKnows.before last.toGrows).before further.toGrows).within middle.symbols kept
  · exact lies k (completes.behind (by rw [← fragment]; exact further.size))

theorem jump_width : OpCode.jump.width = 3 := rfl

theorem jumpUnless_width : OpCode.jumpUnless.width = 3 := rfl

-- Pointing a jump to its target changes only the bytes of the jump.
structure Patched (c d : Compiler) (position : Nat) (i : Instruction) : Prop where
  grows : c.Grows d
  ready : c.Ready → d.Ready
  symbols : d.symbols = c.symbols
  constants : d.constants = c.constants
  size : d.fragment.code.size = c.fragment.code.size
  before : d.fragment.code.Same c.fragment.code 0 position
  behind : ∀ n, d.fragment.code.Same c.fragment.code (position + i.opcode.width) n
  lies : ∀ code : Code, code.Same d.fragment.code position (position + i.opcode.width) →
    code.itemAt position = .instruction i

theorem patch_patched {position target : Nat} {span : Span} {c d : Compiler} {a : Unit} {i : Instruction}
    (item : c.fragment.code.itemAt position = .instruction i)
    (inside : position + i.opcode.width ≤ c.fragment.code.size) (run : patch position target span c = .ok a d) :
    Patched c d position ⟨i.opcode, [target]⟩ := by
  rw [patch] at run
  obtain ⟨⟨⟩, b, checked, rest⟩ := bind_ok.mp run
  obtain ⟨-, rfl⟩ := checkLimit_ok.mp checked
  obtain ⟨same, e, got, written⟩ := bind_ok.mp rest
  obtain ⟨rfl, rfl⟩ := get_ok.mp got
  rw [Code.byte_of_itemAt item] at written
  simp only at written
  split at written
  · cases encoded : Instruction.encode ⟨i.opcode, [target]⟩ with
    | ok bytes =>
      rw [encoded] at written
      cases modify_ok.mp written
      have length := Instruction.encode_length encoded
      simp only at length
      refine ⟨⟨List.prefix_rfl, .refl _, rfl⟩, ?_, rfl, rfl, ?_, ?_, ?_, ?_⟩
      · intro ready
        refine ⟨ready.symbols, fun last present => ?_⟩
        simpa using ready.fragment last present
      · simp
      · exact Code.write_before _ _ _
      · intro n j low _
        exact Code.write_behind _ _ _ j (by simpa [length] using low)
      · intro code same
        have held := Code.write_holds e.fragment.code position bytes (by omega)
        exact Code.itemAt_holds encoded (held.of_same same (Nat.le_refl _) (by simp [length]))
    | error m =>
      rw [encoded] at written
      cases written
  · cases written

theorem conditional_writes (span : Span) {condition yes no : Compiling Unit} {first second third : Layout}
    (one : Writes condition first) (two : Writes (branch yes) second) (three : Writes no third) :
    Writes (conditional span condition yes no) (.choice first second third) := by
  intro c h ready run
  obtain ⟨⟨⟩, c1, tested, run⟩ := bind_ok.mp run
  obtain ⟨skip, c1', here, run⟩ := bind_ok.mp run
  obtain ⟨rfl, rfl⟩ := position_ok.mp here
  obtain ⟨⟨⟩, c2, skipped, run⟩ := bind_ok.mp run
  obtain ⟨⟨⟩, c3, taken, run⟩ := bind_ok.mp run
  obtain ⟨leap, c3', here, run⟩ := bind_ok.mp run
  obtain ⟨rfl, rfl⟩ := position_ok.mp here
  obtain ⟨⟨⟩, c4, jumped, run⟩ := bind_ok.mp run
  obtain ⟨target, c4', here, run⟩ := bind_ok.mp run
  obtain ⟨rfl, rfl⟩ := position_ok.mp here
  obtain ⟨⟨⟩, c5, patched, run⟩ := bind_ok.mp run
  obtain ⟨⟨⟩, c6, other, run⟩ := bind_ok.mp run
  obtain ⟨target, c6', here, repatched⟩ := bind_ok.mp run
  obtain ⟨rfl, rfl⟩ := position_ok.mp here
  -- Before the first patch the code only grows.
  obtain ⟨e1, r1, lies1⟩ := one c c1' ready tested
  obtain ⟨e2, r2, symbols2, constants2, size2, -, lies2⟩ := emit_extends r1 skipped
  obtain ⟨e3, r3, lies3⟩ := two c2 c3' r2 taken
  obtain ⟨e4, r4, symbols4, constants4, size4, -, lies4⟩ := emit_extends r3 jumped
  have size24 := e3.size
  have skip := lies2 c4'.fragment.code (((e3.trans e4).code).within (Nat.zero_le _) (Nat.le_refl _))
  have p5 := patch_patched skip (by simp only [jump_width, jumpUnless_width] at size2 size4 ⊢; omega) patched
  -- Between the patches too, and behind the first jump.
  obtain ⟨e6, r6, lies6⟩ := three c5 c6' (p5.ready r4) other
  have size5 := p5.size
  have size56 := e6.size
  simp only [jump_width, jumpUnless_width] at size2 size4
  have same64 (n : Nat) (low : c2.fragment.code.size ≤ n) :
      c6'.fragment.code.Same c4'.fragment.code n c4'.fragment.code.size := by
    have back := p5.behind c4'.fragment.code.size
    refine (e6.code.within (Nat.zero_le n) (Nat.le_of_eq size5.symm)).trans (back.within ?_ (Nat.le_refl _))
    simp only [jumpUnless_width]
    omega
  have leap := lies4 c6'.fragment.code (same64 _ size24)
  have p7 := patch_patched leap (by simp only [jump_width]; omega) repatched
  have size7 := p7.size
  have same73 (n : Nat) (low : c2.fragment.code.size ≤ n) :
      h.fragment.code.Same c3'.fragment.code n c3'.fragment.code.size :=
    ((p7.before.within (Nat.zero_le n) (Nat.le_refl _)).trans
      ((same64 n low).within (Nat.le_refl n) (by omega))).trans (e4.code.within (Nat.zero_le n) (Nat.le_refl _))
  have same71 : h.fragment.code.Same c1'.fragment.code 0 c1'.fragment.code.size :=
    (p7.before.within (Nat.le_refl 0) (by omega)).trans <| (e6.code.within (Nat.le_refl 0) (by omega)).trans <|
      (p5.before.within (Nat.le_refl 0) (Nat.le_refl _)).trans ((e2.trans (e3.trans e4)).code)
  have g6 : c3'.Grows c6' := e4.toGrows.trans (p5.grows.trans e6.toGrows)
  have g1 : c1'.Grows c6' := (e2.trans e3).toGrows.trans g6
  have e1size := e1.size
  refine ⟨⟨(e1.toGrows.trans g1).trans p7.grows, by omega, ?_⟩, p7.ready r6, fun k completes => ?_⟩
  · exact (same71.within (Nat.le_refl 0) e1size).trans e1.code
  have known := completes.toKnows.before p7.grows
  have same7 (a b : Nat) (low : c.fragment.code.size ≤ a) (high : b ≤ c6'.fragment.code.size) :
      k.code.Same h.fragment.code a b :=
    completes.code.within low (by omega)
  refine ⟨c1'.point, c2.point, c3'.point, c4'.point, ?_, ⟨?_, ?_⟩, ?_, ⟨?_, ?_⟩, ?_⟩
  · exact lies1 k ⟨known.before g1,
      (same7 _ _ (Nat.le_refl _) (by omega)).trans (same71.within (Nat.zero_le _) (Nat.le_refl _))⟩
  · refine p5.lies k.code ?_
    simp only [jumpUnless_width]
    exact ((same7 _ _ e1size (by omega)).trans (p7.before.within (Nat.zero_le _) (by omega))).trans
      (e6.code.within (Nat.zero_le _) (by omega))
  · simp [Compiler.point, symbols2, constants2, size2, jumpUnless_width]
  · exact lies3 k ⟨known.before g6,
      (same7 _ _ (by omega) (by omega)).trans (same73 _ (Nat.le_refl _))⟩
  · have target : h.point.position = c6'.fragment.code.size := size7
    rw [target]
    exact p7.lies k.code (same7 _ _ (by omega) (by simp only [jump_width]; omega))
  · simp [Compiler.point, symbols4, constants4, size4, jump_width]
  · have start : c5.point = c4'.point := by simp [Compiler.point, p5.symbols, p5.constants, p5.size]
    have finish : h.point = c6'.point := by simp [Compiler.point, p7.symbols, p7.constants, p7.size]
    rw [← start, finish]
    refine lies6 k ⟨known, (same7 _ _ (by omega) (Nat.le_refl _)).trans ((p7.behind _).within ?_ (Nat.le_refl _))⟩
    simp only [jump_width]
    omega

end StackScript.Compiling
