import StackScript.Proofs.Code.Walk
import StackScript.Proofs.Compiler.Balanced

-- Everything a compiler writes is well formed.
namespace StackScript

structure Place where
  constants : Array Value
  limit : Nat -- only constants below it
  globals : Nat -- how many global names are declared
  function : Option (Nat × Nat) -- how many locals and captured values; none in the main program

-- Reads no captured value but the first `n`.
def Code.FreeBelow (code : Code) (n : Nat) : Prop := ∀ offset j, code.Has offset ⟨.getFree, [j]⟩ → j < n

-- An instruction whose operand, unless it is a jump's, is in range.
def Instruction.InRange (place : Place) : Instruction → Prop
  | ⟨.constant, [n]⟩ => n < place.limit ∧ ∀ r, place.constants[n]? = some (.function r) → r.code.FreeBelow 0
  | ⟨.closure, [n, m]⟩ =>
    n < place.limit ∧ 0 < m ∧ ∃ r, place.constants[n]? = some (.function r) ∧ r.code.FreeBelow m
  | ⟨.getGlobal, [n]⟩ | ⟨.setGlobal, [n]⟩ | ⟨.assignGlobal, [n]⟩ => n < place.globals
  | ⟨.getLocal, [n]⟩ | ⟨.setLocal, [n]⟩ | ⟨.assignLocal, [n]⟩ =>
    ∃ locals captured, place.function = some (locals, captured) ∧ n < locals
  | ⟨.getFree, [n]⟩ => ∃ locals captured, place.function = some (locals, captured) ∧ n < captured
  | ⟨.currentClosure, []⟩ => place.function.isSome
  | ⟨.getBuiltin, [n]⟩ => n < Builtin.all.length
  | _ => True

def Instruction.IsJump (i : Instruction) (target : Nat) : Prop := i = ⟨.jump, [target]⟩ ∨ i = ⟨.jumpUnless, [target]⟩

structure Code.WellFormed (code : Code) (place : Place) : Prop where
  whole : code.Walk 0 code.size
  jumps : ∀ offset i target, code.Has offset i → i.IsJump target →
    offset < target ∧ target < code.size ∧ code.Walk 0 target
  operands : ∀ offset i, code.Has offset i → i.InRange place

-- The last instruction of a code goes back to the caller.
def Code.Returns (code : Code) : Prop := ∃ offset i, code.Has offset i ∧ offset + i.opcode.width = code.size ∧
  (i = ⟨.returnValue, []⟩ ∨ i = ⟨.returnNull, []⟩)

-- A function among constants. It refers only to those before it.
structure Routine.WellFormed (r : Routine) (constants : Array Value) (index globals : Nat) : Prop where
  code : ∃ captured, r.code.WellFormed ⟨constants, index, globals, some (r.locals, captured)⟩
  parameters : r.parameters ≤ r.locals
  locals : r.locals ≤ 255
  returns : r.code.Returns

structure Bytecode.WellFormed (b : Bytecode) (globals : Nat) : Prop where
  main : b.code.WellFormed ⟨b.constants, b.constants.size, globals, none⟩
  functions : ∀ (n : Nat) (r : Routine), b.constants[n]? = some (.function r) → r.WellFormed b.constants n globals

namespace Finished

def Sound (k : Finished) : Prop := k.nested = false → k.captures = []

def place (k : Finished) (limit : Nat) : Place :=
  ⟨k.constants, limit, k.globals, if k.nested then some (k.locals, k.captures.length) else none⟩

-- An instruction of a piece of code that ends at a position. Behind a jump to the end something must follow, which is
-- so while a value is left there.
structure Allows (k : Finished) (limit position height offset : Nat) (i : Instruction) : Prop where
  operands : i.InRange (k.place limit)
  jumps : ∀ target, i.IsJump target →
    offset < target ∧ k.code.Walk offset target ∧ (target < position ∨ (target = position ∧ 0 < height))

end Finished

theorem Instruction.InRange.mono {i : Instruction} {k : Finished} {a b : Nat} (range : i.InRange (k.place a))
    (le : a ≤ b) : i.InRange (k.place b) := by
  unfold InRange at range ⊢
  split at range
  · exact ⟨Nat.lt_of_lt_of_le range.1 le, range.2⟩
  · exact ⟨Nat.lt_of_lt_of_le range.1 le, range.2⟩
  all_goals exact range

theorem Finished.Allows.mono {k : Finished} {a b p q h g offset : Nat} {i : Instruction}
    (allows : k.Allows a p h offset i) (limit : a ≤ b) (position : p < q ∨ (p = q ∧ h = g)) :
    k.Allows b q g offset i := by
  refine ⟨allows.operands.mono limit, fun target jump => ?_⟩
  obtain ⟨after, walk, inside⟩ := allows.jumps target jump
  refine ⟨after, walk, ?_⟩
  omega

theorem Finished.Allows.of_operands {k : Finished} {limit p h offset : Nat} {i : Instruction}
    (operands : i.InRange (k.place limit)) (straight : ∀ target, ¬ i.IsJump target) : k.Allows limit p h offset i :=
  ⟨operands, fun target jump => absurd jump (straight target)⟩

structure Segment (k : Finished) (p : Point) (a : Nat) (q : Point) (b : Nat) : Prop where
  walk : k.code.WalkAll (k.Allows q.constants q.position b) p.position q.position
  constants : p.constants ≤ q.constants
  valid : q.symbols.Valid
  grows : p.symbols.Grows q.symbols
  still : p.position = q.position → a = b
  functions : ∀ (n : Nat) (r : Routine), p.constants ≤ n → n < q.constants → k.constants[n]? = some (.function r) →
    r.WellFormed k.constants n k.globals

namespace Segment

variable {k : Finished} {p q m : Point} {a b c h : Nat}

theorem le (segment : Segment k p a q b) : p.position ≤ q.position := segment.walk.walk.le

theorem moved (segment : Segment k p a q b) : p.position < q.position ∨ (p.position = q.position ∧ a = b) := by
  have := segment.le
  have := segment.still
  omega

theorem seq (left : Segment k p a m b) (right : Segment k m b q c) : Segment k p a q c := by
  refine ⟨?_, Nat.le_trans left.constants right.constants, right.valid, left.grows.trans right.grows, ?_, ?_⟩
  · refine (left.walk.mono fun offset i allows => ?_).append right.walk
    exact allows.mono right.constants right.moved
  · intro equal
    have first := left.moved
    have second := right.moved
    omega
  · intro n r low high function
    by_cases before : n < m.constants
    · exact left.functions n r low before function
    · exact right.functions n r (by omega) high function

theorem one {i : Instruction} (valid : p.symbols.Valid) (lies : Layout.instruction i k p q)
    (allows : k.Allows p.constants q.position b p.position i) : Segment k p a q b := by
  obtain ⟨item, rfl⟩ := lies
  have width := i.opcode.width_pos
  refine ⟨.one item allows, Nat.le_refl _, valid, .refl _, ?_, ?_⟩
  · intro equal
    simp only at equal
    omega
  · intro n r low high
    simp only at high
    omega

theorem table {symbols : SymbolTable} (valid : symbols.Valid) (grows : p.symbols.Grows symbols) :
    Segment k p h { p with symbols } h :=
  ⟨.here, Nat.le_refl _, valid, grows, fun _ => rfl, fun n r low high => absurd high (by simp only; omega)⟩

theorem made {i : Instruction} (valid : p.symbols.Valid)
    (lies : Layout.instruction i k { p with constants := p.constants + 1 } q)
    (allows : k.Allows (p.constants + 1) q.position b p.position i)
    (function : ∀ r, k.constants[p.constants]? = some (.function r) → r.WellFormed k.constants p.constants k.globals) :
    Segment k p a q b := by
  obtain ⟨item, rfl⟩ := lies
  have width := i.opcode.width_pos
  refine ⟨.one item allows, Nat.le_succ _, valid, .refl _, ?_, ?_⟩
  · intro equal
    simp only at equal
    omega
  · intro n r low high present
    simp only at high
    obtain rfl : n = p.constants := by omega
    exact function r present

theorem choice {d e : Point} {x : Point} (first : Segment k p h x (h + 1))
    (skip : Layout.instruction ⟨.jumpUnless, [e.position]⟩ k x m) (second : Segment k m h d (h + 1))
    (leap : Layout.instruction ⟨.jump, [q.position]⟩ k d e) (third : Segment k e h q (h + 1)) :
    Segment k p h q (h + 1) := by
  obtain ⟨skipItem, rfl⟩ := skip
  obtain ⟨leapItem, rfl⟩ := leap
  have le1 := first.le
  have le2 := second.le
  have move3 := third.moved
  simp only [Compiling.jump_width, Compiling.jumpUnless_width] at le2 move3
  have count2 := second.constants
  have count3 := third.constants
  simp only at count2 count3
  have toEnd : k.code.Walk d.position q.position := .next leapItem trivial third.walk.walk
  have toThird : k.code.Walk x.position (d.position + OpCode.jump.width) :=
    .next skipItem trivial (second.walk.walk.append (.next leapItem trivial .here))
  refine ⟨?_, ?_, third.valid, ?_, ?_, ?_⟩
  · refine (first.walk.mono fun offset i allows => allows.mono (by omega) (.inl (by omega))).append ?_
    refine .next skipItem ⟨trivial, ?_⟩ ?_
    · intro target jump
      rcases jump with equal | equal <;> cases equal
      refine ⟨?_, toThird, .inl ?_⟩ <;> simp only [Compiling.jump_width] <;> omega
    · refine (second.walk.mono fun offset i allows => allows.mono count3 (.inl (by omega))).append ?_
      refine .next leapItem ⟨trivial, ?_⟩ third.walk
      intro target jump
      rcases jump with equal | equal <;> cases equal
      exact ⟨by omega, toEnd, .inr ⟨rfl, by omega⟩⟩
  · have := first.constants
    omega
  · exact first.grows.trans (second.grows.trans third.grows)
  · omega
  · intro n r low high present
    by_cases one : n < x.constants
    · exact first.functions n r low one present
    · by_cases two : n < d.constants
      · exact second.functions n r (by simp only; omega) two present
      · exact third.functions n r (by simp only; omega) high present

end Segment

theorem Instruction.effect_free {i : Instruction} {effect : Nat × Nat} (known : i.effect? = some effect) (place : Place) :
    i.InRange place ∧ ∀ target, ¬ i.IsJump target := by
  unfold effect? at known
  split at known <;> first | exact ⟨trivial, by simp [IsJump]⟩ | cases known

theorem Symbol.Within.reading {symbol : Symbol} {k : Finished} (within : symbol.Within k) (sound : k.Sound) (limit : Nat) :
    symbol.reading.InRange (k.place limit) ∧ ∀ target, ¬ symbol.reading.IsJump target := by
  unfold Symbol.Within at within
  unfold Symbol.reading
  cases storage : symbol.storage <;> simp only [storage] at within ⊢ <;> refine ⟨?_, by simp [Instruction.IsJump]⟩
  case global => exact within
  case native => exact within
  case frame => exact ⟨k.locals, k.captures.length, by simp [Finished.place, within.2], within.1⟩
  case itself => simp [Instruction.InRange, Finished.place, within]
  case captured =>
    cases nested : k.nested with
    | false => simp [sound nested] at within
    | true =>
      refine ⟨k.locals, k.captures.length, by simp [Finished.place, nested], ?_⟩
      rw [Option.map_eq_some_iff] at within
      obtain ⟨outer, present, -⟩ := within
      exact (List.getElem?_eq_some_iff.mp present).1

theorem Symbol.writing_shape {symbol : Symbol} {i : Instruction} (kept : symbol.storage = .global ∨ symbol.storage = .frame)
    (writes : i = symbol.setting ∨ symbol.assigning? = some i) :
    (symbol.storage = .global ∧ (i = ⟨.setGlobal, [symbol.index]⟩ ∨ i = ⟨.assignGlobal, [symbol.index]⟩)) ∨
    (symbol.storage = .frame ∧ (i = ⟨.setLocal, [symbol.index]⟩ ∨ i = ⟨.assignLocal, [symbol.index]⟩)) := by
  rcases kept with storage | storage <;> rcases writes with rfl | assigning
  · exact .inl ⟨storage, .inl (by simp [setting, storage])⟩
  · cases mutability : symbol.mutability <;> simp [assigning?, storage, mutability] at assigning
    exact .inl ⟨storage, .inr assigning.symm⟩
  · exact .inr ⟨storage, .inl (by simp [setting, storage])⟩
  · cases mutability : symbol.mutability <;> simp [assigning?, storage, mutability] at assigning
    exact .inr ⟨storage, .inr assigning.symm⟩

theorem Symbol.Within.writing {symbol : Symbol} {i : Instruction} {k : Finished} (within : symbol.Within k)
    (kept : symbol.storage = .global ∨ symbol.storage = .frame)
    (writes : i = symbol.setting ∨ symbol.assigning? = some i) (limit : Nat) :
    i.InRange (k.place limit) ∧ ∀ target, ¬ i.IsJump target := by
  unfold Symbol.Within at within
  rcases Symbol.writing_shape kept writes with ⟨storage, rfl | rfl⟩ | ⟨storage, rfl | rfl⟩ <;>
    simp only [storage] at within <;> refine ⟨?_, by simp [Instruction.IsJump]⟩
  · exact within
  · exact within
  · exact ⟨k.locals, k.captures.length, by simp [Finished.place, within.2], within.1⟩
  · exact ⟨k.locals, k.captures.length, by simp [Finished.place, within.2], within.1⟩

theorem Segment.set {k : Finished} {p q : Point} {symbol : Symbol} {h : Nat} (valid : p.symbols.Valid)
    (kept : symbol.storage = .global ∨ symbol.storage = .frame) (lies : Layout.set symbol k p q) :
    Segment k p (h + 1) q h := by
  obtain ⟨within, lies⟩ := lies
  obtain ⟨range, straight⟩ := within.writing kept (.inl rfl) _
  exact .one valid lies (.of_operands range straight)

theorem SymbolTable.Declares.grows {names : List String} {t u : SymbolTable} (valid : t.Valid) (declares : t.Declares names u) :
    u.Valid ∧ t.Grows u ∧ u.innermost.slots = t.innermost.slots + names.length := by
  induction names generalizing t with
  | nil =>
    cases declares
    exact ⟨valid, .refl _, rfl⟩
  | cons name rest ih =>
    obtain ⟨symbol, v, defined, others⟩ := declares
    obtain ⟨done, grows, slots⟩ := ih (SymbolTable.define_valid valid defined) others
    refine ⟨done, (SymbolTable.define_grows defined).trans grows, ?_⟩
    obtain ⟨-, -, rfl⟩ := SymbolTable.define_ok defined
    simp only at slots
    rw [slots, List.length_cons]
    omega

theorem SymbolTable.Declares.entered {t u : SymbolTable} {own : Option (String × Mutability)} {names : List String}
    (declares : (t.enterAs own).Declares names u) (valid : t.Valid) : u.Valid :=
  (declares.grows (Compiling.enterAs_valid own valid)).1

theorem SymbolTable.Declares.leave_shape {t first u v : SymbolTable} {scope : Scope} {own : Option (String × Mutability)}
    {names : List String} (declares : (t.enterAs own).Declares names first) (before : t.Valid) (grows : first.Grows u)
    (valid : u.Valid) (left : u.leave? = some (scope, v)) :
    u.innermost = scope ∧ u.enclosing = v.innermost :: v.enclosing ∧ v.Valid ∧ t.Grows v := by
  obtain ⟨s, rest⟩ := u
  have chain := ((declares.grows (Compiling.enterAs_valid own before)).2.1.trans grows).enclosing
  rw [(enterAs_shape t own).1] at chain
  cases rest with
  | nil => cases left
  | cons around rest =>
    cases left
    cases chain with
    | cons first others => exact ⟨rfl, rfl, valid.2, first, others⟩

theorem Segment.wellFormed {k : Finished} {p q : Point} (segment : Segment k p 0 q 0) (start : p.position = 0)
    (size : q.position = k.code.size) : k.code.WellFormed (k.place q.constants) := by
  have walk := segment.walk
  rw [start, size] at walk
  refine ⟨walk.walk, ?_, ?_⟩
  · rintro offset i target ⟨reached, here⟩ jump
    have allows := walk.at_offset reached (Code.itemAt_inside here) here
    obtain ⟨after, further, inside⟩ := allows.jumps target jump
    exact ⟨after, by omega, reached.append further⟩
  · rintro offset i ⟨reached, here⟩
    exact (walk.at_offset reached (Code.itemAt_inside here) here).operands

theorem Segment.constant {k : Finished} {p q : Point} {v : Value} {h : Nat} (valid : p.symbols.Valid) (literal : v.Literal)
    (lies : Layout.constant v k p q) : Segment k p h q (h + 1) := by
  obtain ⟨present, lies⟩ := lies
  have plain : ∀ r, k.constants[p.constants]? ≠ some (.function r) := by
    rintro r equal
    rw [present] at equal
    cases equal
    exact literal
  refine .made valid lies (.of_operands ⟨Nat.lt_succ_self _, ?_⟩ (by simp [Instruction.IsJump])) ?_
  · intro r equal
    exact absurd equal (plain r)
  · intro r equal
    exact absurd equal (plain r)

theorem Instruction.Ends.free {i : Instruction} {height : Nat} (ends : i.Ends height) (place : Place) :
    i.InRange place ∧ ∀ target, ¬ i.IsJump target := by
  rcases ends with ⟨rfl, -⟩ | ⟨rfl, -⟩
  · exact ⟨trivial, by simp [IsJump]⟩
  · exact ⟨trivial, by simp [IsJump]⟩

theorem Instruction.Ends.returns {i : Instruction} {height : Nat} (ends : i.Ends height) :
    i = ⟨.returnValue, []⟩ ∨ i = ⟨.returnNull, []⟩ := by
  rcases ends with ⟨rfl, -⟩ | ⟨rfl, -⟩
  · exact .inl rfl
  · exact .inr rfl

-- A body that goes back at its end is the code of a well-formed function, which reads no more than was captured for it.
theorem Segment.routine {k : Finished} {code : Code} {scope : Scope} {first : SymbolTable} {e : Point} {i : Instruction}
    {constants parameters height : Nat} (inner : Segment (k.inner code scope) ⟨first, constants, 0⟩ 0 e height)
    (ends : i.Ends height) (item : code.itemAt e.position = .instruction i) (size : e.position + i.opcode.width = code.size)
    (fewer : parameters ≤ scope.slots) (slots : scope.slots ≤ 255) :
    Routine.WellFormed ⟨code, parameters, scope.slots⟩ k.constants e.constants k.globals ∧
      code.FreeBelow scope.captures.size := by
  obtain ⟨range, straight⟩ := ends.free ((k.inner code scope).place e.constants)
  have closed : Segment (k.inner code scope) ⟨first, constants, 0⟩ 0 { e with position := e.position + i.opcode.width } 0 :=
    inner.seq (.one inner.valid ⟨item, rfl⟩ (.of_operands range straight))
  have whole : code.WellFormed ((k.inner code scope).place e.constants) := closed.wellFormed rfl size
  refine ⟨⟨⟨scope.captures.toList.length, whole⟩, fewer, slots, ?_⟩, ?_⟩
  · exact ⟨e.position, i, ⟨inner.walk.walk, item⟩, size, ends.returns⟩
  · intro offset j has
    obtain ⟨locals, captured, equal, below⟩ := whole.operands offset _ has
    cases equal
    simpa [Finished.inner] using below

theorem Segment.making {k : Finished} {p q : Point} {r : Routine} {captured h : Nat} (valid : p.symbols.Valid)
    (made : k.constants[p.constants]? = some (.function r))
    (lies : Layout.instruction (Layout.making p.constants captured) k { p with constants := p.constants + 1 } q)
    (routine : r.WellFormed k.constants p.constants k.globals) (free : r.code.FreeBelow captured) :
    Segment k p (h + captured) q (h + 1) := by
  have only : ∀ other, k.constants[p.constants]? = some (.function other) → other = r := by
    intro other present
    cases present.symm.trans made
    rfl
  refine .made valid lies ?_ ?_
  · rw [Layout.making]
    split
    · rename_i captureless
      refine .of_operands ⟨Nat.lt_succ_self _, ?_⟩ (by simp [Instruction.IsJump])
      intro other present
      rw [only other present, ← captureless]
      exact free
    · exact .of_operands ⟨Nat.lt_succ_self _, by omega, _, made, free⟩ (by simp [Instruction.IsJump])
  · intro other present
    rw [only other present]
    exact routine

theorem Balanced.segment {k : Finished} {p q : Point} {a b : Nat} (balanced : Balanced k p a q b) (sound : k.Sound)
    (valid : p.symbols.Valid) : Segment k p a q b := by
  induction balanced with
  | nothing => exact .table valid (.refl _)
  | seq _ _ first second =>
    have left := first sound valid
    exact left.seq (second sound left.valid)
  | plain effect lies =>
    obtain ⟨range, straight⟩ := Instruction.effect_free effect (Finished.place _ _)
    exact .one valid lies (.of_operands range straight)
  | constant literal lies => exact .constant valid literal lies
  | resolve found =>
    have resolved := SymbolTable.resolve_resolved valid found
    exact .table resolved.valid resolved.table
  | read lies =>
    obtain ⟨range, straight⟩ := lies.1.reading sound _
    exact .one valid lies.2 (.of_operands range straight)
  | assign found assigning within lies =>
    have resolved := SymbolTable.resolve_resolved valid found
    obtain ⟨range, straight⟩ := within.writing (Symbol.assigning_kept assigning) (.inr assigning) _
    exact (Segment.table resolved.valid resolved.table).seq (.one resolved.valid lies (.of_operands range straight))
  | bind defined lies =>
    have grown := SymbolTable.define_valid valid defined
    exact (Segment.table grown (SymbolTable.define_grows defined)).seq (.set grown (SymbolTable.define_kept defined) lies)
  | bindEarly defined _ lies value =>
    have grown := SymbolTable.define_valid valid defined
    have made := (Segment.table grown (SymbolTable.define_grows defined)).seq (value sound grown)
    exact made.seq (.set made.valid (SymbolTable.define_kept defined) lies)
  | choice _ skip _ leap _ first second third =>
    have left := first sound valid
    have middle := second sound (by obtain ⟨-, rfl⟩ := skip; exact left.valid)
    exact .choice left skip middle leap (third sound (by obtain ⟨-, rfl⟩ := leap; exact middle.valid))
  | @function k p q m e last own parameters code scope first table i height h declares _ ends ret size left few slots
      captures _ made _ same making body reads =>
    have inner := body (fun plain => by cases plain) (declares.entered valid)
    obtain ⟨item, rfl⟩ := ret
    obtain ⟨innermost, -, around, outside⟩ := declares.leave_shape valid inner.grows inner.valid left
    have fewer : parameters.length ≤ scope.slots := by
      have firstSlots := (declares.grows (Compiling.enterAs_valid own valid)).2.2
      have more := inner.grows.innermost.slots
      have uncaptured := (SymbolTable.enterAs_shape p.symbols own).2
      simp only at more
      simp only [← innermost]
      omega
    obtain ⟨routine, free⟩ := inner.routine ends item size fewer slots
    -- It is made from what is read in the scope around, behind the constants of the body.
    have loaded := reads sound around
    simp only at same made making
    rw [← same] at made making routine
    have rest := loaded.seq (.making loaded.valid made making routine free)
    refine ⟨rest.walk, Nat.le_trans inner.constants rest.constants, rest.valid, outside.trans rest.grows, rest.still, ?_⟩
    intro n r low high present
    by_cases inside : n < e.constants
    · exact inner.functions n r low inside present
    · exact rest.functions n r (by simp only; omega) high present

-- The code of a program and of all its functions is well formed, whatever the program is.
theorem compile_wellFormed (p : Program) (d : Compiler) (run : Compiler.new.compile p = .ok () d) :
    d.bytecode.WellFormed d.symbols.innermost.slots := by
  obtain ⟨natives, outermost⟩ := Compiler.nativeNames_valid
  obtain ⟨grown, done, main, lies⟩ := Compiler.compile_lies (Compiler.resume_ready natives #[]) outermost run
  have segment := (Layout.statements_adds p.statements _ _ _ 0 lies).segment (fun _ => rfl) natives
  have code : d.bytecode = ⟨d.fragment.code, d.constants⟩ := by
    rw [Compiler.bytecode, grown.enclosing]
    rfl
  have globals : d.symbols.globals = d.symbols.innermost.slots := by
    rw [SymbolTable.globals, main]
    rfl
  rw [code, ← globals]
  refine ⟨segment.wellFormed rfl rfl, fun n r present => ?_⟩
  exact segment.functions n r (Nat.zero_le _) (Array.getElem?_eq_some_iff.mp present).1 present

-- let add = fn(x) { fn(y) { x + y } };
def Program.adder : Program :=
  ⟨[.declare .unknown .fixed "add" (.function .unknown (some "add") ["x"]
    [.expression .unknown (.function .unknown none ["y"]
      [.expression .unknown (.binary .unknown "+" (.identifier .unknown "x") (.identifier .unknown "y"))])])], none⟩

theorem compile_wellFormed_adder : ∃ d, Compiler.new.compile .adder = .ok () d ∧
    d.bytecode.WellFormed d.symbols.innermost.slots := by
  obtain ⟨d, run⟩ : Program.adder.Compiles := by decide +kernel
  exact ⟨d, run, compile_wellFormed .adder d run⟩

end StackScript
