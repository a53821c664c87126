import StackScript.Proofs.Compiler.Beside
import StackScript.Proofs.Compiler.Limits

-- What a step writes behind other code it also writes by itself, with the targets of its jumps as much lower.
namespace StackScript

structure Compiler.Levels (c d : Compiler) : Prop where
  enclosing : d.enclosing = c.enclosing
  scopes : d.symbols.enclosing.length = c.symbols.enclosing.length

theorem Compiler.Levels.refl (c : Compiler) : c.Levels c := ⟨rfl, rfl⟩

theorem Compiler.Levels.trans {c d e : Compiler} (left : c.Levels d) (right : d.Levels e) : c.Levels e :=
  ⟨right.enclosing.trans left.enclosing, right.scopes.trans left.scopes⟩

namespace Compiling

open Compiler (Beside Levels)
open Instruction (raise)

-- A compiler beside the one that has come from `c` to `e`, after a step of its own from `d`.
def Follows (m : Compiling Unit) (before : List UInt8) (js is : List Instruction) (c d e : Compiler) : Prop :=
  ∃ f new, m d = .ok () f ∧ Beside before (js ++ new.map (raise before.length)) (is ++ new) e f ∧ c.Levels e ∧ d.Levels f

def Shifts (m : Compiling Unit) : Prop := ∀ before js is c d e, Beside before js is c d → m c = .ok () e →
  Follows m before js is c d e

variable {before : List UInt8} {js is : List Instruction} {c d e : Compiler}

theorem beside_table (beside : Beside before js is c d) (table : SymbolTable) :
    Beside before js is { c with symbols := table } { d with symbols := table } :=
  ⟨beside.constants, rfl, beside.fragment⟩

theorem pure_shifts : Shifts (pure ()) := by
  intro before js is c d e beside run
  obtain ⟨-, rfl⟩ := pure_ok.mp run
  exact ⟨d, [], rfl, by simpa using beside, .refl _, .refl _⟩

theorem follows_then {m n : Compiling Unit} {b f : Compiler} {new : List Instruction} (ran : m d = .ok () f)
    (left : c.Levels b) (left' : d.Levels f)
    (rest : Follows n before (js ++ new.map (raise before.length)) (is ++ new) b f e) :
    Follows (m >>= fun _ => n) before js is c d e := by
  obtain ⟨g, more, further, beside, right, right'⟩ := rest
  refine ⟨g, new ++ more, bind_ok.mpr ⟨(), f, ran, further⟩, ?_, left.trans right, left'.trans right'⟩
  simpa using beside

theorem seq_shifts {m n : Compiling Unit} (one : Shifts m) (two : Shifts n) : Shifts (m >>= fun _ => n) := by
  intro before js is c d e beside run
  obtain ⟨⟨⟩, b, first, rest⟩ := bind_ok.mp run
  obtain ⟨f, new, ran, middle, left, left'⟩ := one _ _ _ _ _ _ beside first
  exact follows_then ran left left' (two _ _ _ _ _ _ middle rest)

theorem emit_beside {op : OpCode} {operands : List Nat} (beside : Beside before js is c d)
    (run : emit op operands c = .ok () e) : ∃ f, emit op operands d = .ok () f ∧
      Beside before (js ++ [⟨op, operands⟩]) (is ++ [⟨op, operands⟩]) e f ∧ c.Levels e ∧ d.Levels f := by
  obtain ⟨bytes, encoded, rfl⟩ := emit_ok.mp run
  exact ⟨_, emit_ok.mpr ⟨bytes, encoded, rfl⟩,
    ⟨beside.constants, beside.symbols, beside.fragment.append encoded encoded⟩, ⟨rfl, rfl⟩, ⟨rfl, rfl⟩⟩

theorem emit_shifts {op : OpCode} (operands : List Nat) (jump : op ≠ .jump) (unless_ : op ≠ .jumpUnless) :
    Shifts (emit op operands) := by
  intro before js is c d e beside run
  obtain ⟨f, ran, beside, levels, levels'⟩ := emit_beside beside run
  refine ⟨f, [⟨op, operands⟩], ran, ?_, levels, levels'⟩
  rwa [List.map_singleton, Instruction.raise_straight (i := ⟨op, operands⟩) jump unless_]

theorem limited_shifts {value limit : Nat} {what : String} {span : Span} {m : Compiling Unit} (shifts : Shifts m) :
    Shifts (do checkLimit value limit what span; m) := by
  intro before js is c d e beside run
  obtain ⟨⟨⟩, c', checked, rest⟩ := bind_ok.mp run
  obtain ⟨within, rfl⟩ := checkLimit_ok.mp checked
  obtain ⟨f, new, ran, others⟩ := shifts _ _ _ _ _ _ beside rest
  exact ⟨f, new, bind_ok.mpr ⟨(), d, checkLimit_ok.mpr ⟨within, rfl⟩, ran⟩, others⟩

theorem constant_shifts {v : Value} {span : Span} {m : Nat → Compiling Unit} (shifts : ∀ n, Shifts (m n)) :
    Shifts (do m (← addConstant v span)) := by
  intro before js is c d e beside run
  obtain ⟨index, c', added, rest⟩ := bind_ok.mp run
  obtain ⟨within, rfl, rfl⟩ := addConstant_ok.mp added
  have pushed : Beside before js is { c with constants := c.constants.push v } { d with constants := d.constants.push v } :=
    ⟨by rw [beside.constants], beside.symbols, beside.fragment⟩
  obtain ⟨f, new, ran, beside', levels, levels'⟩ := shifts _ _ _ _ _ _ _ pushed rest
  rw [beside.constants] at within ran
  exact ⟨f, new, bind_ok.mpr ⟨_, _, addConstant_ok.mpr ⟨within, rfl, rfl⟩, ran⟩, beside', ⟨levels.enclosing, levels.scopes⟩,
    ⟨levels'.enclosing, levels'.scopes⟩⟩

theorem emitConstant_shifts (v : Value) (span : Span) : Shifts (emitConstant v span) :=
  constant_shifts fun n => emit_shifts [n] (by simp) (by simp)

theorem resolve_shifts {name : String} {span : Span} {m : Symbol → Compiling Unit} (shifts : ∀ symbol, Shifts (m symbol)) :
    Shifts (do m (← resolve name span)) := by
  intro before js is c d e beside run
  obtain ⟨symbol, c', found, rest⟩ := bind_ok.mp run
  obtain ⟨table, known, rfl⟩ := resolve_ok.mp found
  have scopes : table.enclosing.length = c.symbols.enclosing.length := by
    have counts := congrArg List.length (SymbolTable.resolve_counts known)
    simpa [SymbolTable.counts] using counts
  obtain ⟨f, new, ran, beside', levels, levels'⟩ := shifts symbol _ _ _ _ _ _ (beside_table beside table) rest
  refine ⟨f, new, bind_ok.mpr ⟨symbol, _, resolve_ok.mpr ⟨table, by rw [← beside.symbols, known], rfl⟩, ran⟩, beside',
    ⟨levels.enclosing, levels.scopes.trans scopes⟩, ⟨levels'.enclosing, levels'.scopes.trans ?_⟩⟩
  rw [← beside.symbols]
  exact scopes

theorem define_shifts {name : String} {mutability : Mutability} {span : Span} {m : Symbol → Compiling Unit}
    (shifts : ∀ symbol, Shifts (m symbol)) : Shifts (do m (← define name mutability span)) := by
  intro before js is c d e beside run
  obtain ⟨symbol, c', defined, rest⟩ := bind_ok.mp run
  obtain ⟨table, known, rfl⟩ := define_ok.mp defined
  have scopes : table.enclosing.length = c.symbols.enclosing.length := by
    have counts := congrArg List.length (SymbolTable.define_counts known).2.1
    simpa [SymbolTable.counts] using counts
  obtain ⟨f, new, ran, beside', levels, levels'⟩ := shifts symbol _ _ _ _ _ _ (beside_table beside table) rest
  refine ⟨f, new, bind_ok.mpr ⟨symbol, _, define_ok.mpr ⟨table, by rw [← beside.symbols, known], rfl⟩, ran⟩, beside',
    ⟨levels.enclosing, levels.scopes.trans scopes⟩, ⟨levels'.enclosing, levels'.scopes.trans ?_⟩⟩
  rw [← beside.symbols]
  exact scopes

theorem load_shifts (symbol : Symbol) : Shifts (load symbol) := by
  unfold load
  cases symbol.storage <;> exact emit_shifts _ (by simp) (by simp)

theorem loadAll_shifts (symbols : List Symbol) : Shifts (loadAll symbols) := by
  induction symbols with
  | nil => exact pure_shifts
  | cons symbol rest ih => exact seq_shifts (load_shifts symbol) ih

theorem store_shifts (symbol : Symbol) (span : Span) : Shifts (store symbol span) := by
  unfold store
  split
  · exact limited_shifts (emit_shifts _ (by simp) (by simp))
  · exact limited_shifts (emit_shifts _ (by simp) (by simp))

theorem refuse_shifts (e : CompileError) : Shifts (refuse e) := by
  intro before js is c d f beside run
  cases run

theorem assignTo_shifts (name : String) (span : Span) : Shifts (assignTo name span) := by
  refine resolve_shifts fun symbol => ?_
  cases symbol.mutability <;> cases symbol.storage <;>
    first | exact refuse_shifts _ | exact emit_shifts _ (by simp) (by simp)

-- A block ends with the same instruction in both, and both take it back if it is a pop.
theorem branch_shifts {body : Compiling Unit} (shifts : Shifts body) : Shifts (branch body) := by
  intro before js is c d e beside run
  rw [branch] at run
  obtain ⟨start, c', here, run⟩ := bind_ok.mp run
  obtain ⟨rfl, rfl⟩ := position_ok.mp here
  obtain ⟨⟨⟩, b, written, run⟩ := bind_ok.mp run
  obtain ⟨b', b'', got, closed⟩ := bind_ok.mp run
  obtain ⟨rfl, rfl⟩ := get_ok.mp got
  obtain ⟨f, new, ran, middle, levels, levels'⟩ := shifts _ _ _ _ _ _ beside written
  have ends := middle.fragment.endsWith .pop d.fragment.code.size
  rw [← beside.fragment.size] at ends
  rw [ends] at closed
  have start (m : Compiling Unit) {g : Compiler} (next : m f = .ok () g)
      (choice : (if f.fragment.endsWith .pop d.fragment.code.size then
        modify fun c => { c with fragment := c.fragment.dropLast } else emit .pushNull []) = m) :
      branch body d = .ok () g := by
    rw [branch]
    refine bind_ok.mpr ⟨_, d, position_ok.mpr ⟨rfl, rfl⟩, bind_ok.mpr ⟨(), f, ran, bind_ok.mpr ⟨f, f, rfl, ?_⟩⟩⟩
    rw [choice]
    exact next
  by_cases last : f.fragment.endsWith .pop d.fragment.code.size = true
  · rw [if_pos last] at closed
    cases modify_ok.mp closed
    have nonempty : new ≠ [] := by
      rintro rfl
      have memory := middle.fragment.last
      rw [List.append_nil] at memory
      rcases memory with ⟨forgotten, -⟩ | ⟨front, op, shape, alone, -⟩
      · simp [Fragment.endsWith, forgotten] at last
      · have width := op.width_pos
        simp [Fragment.endsWith, alone, beside.fragment.size_alone, shape] at last
        omega
    have dropped := middle.fragment.dropLast last
    rw [List.dropLast_append_of_ne_nil nonempty, List.dropLast_append_of_ne_nil (by simpa using nonempty),
      ← List.map_dropLast] at dropped
    exact ⟨_, new.dropLast, start _ (modify_ok.mpr rfl) (if_pos last), ⟨middle.constants, middle.symbols, dropped⟩,
      ⟨levels.enclosing, levels.scopes⟩, ⟨levels'.enclosing, levels'.scopes⟩⟩
  · rw [if_neg last] at closed
    obtain ⟨g, ended, further, more, more'⟩ := emit_beside middle closed
    refine ⟨g, new ++ [⟨.pushNull, []⟩], start _ ended (if_neg last), ?_, levels.trans more, levels'.trans more'⟩
    rw [List.map_append, ← List.append_assoc, ← List.append_assoc]
    exact further

theorem patch_ok {position target : Nat} {span : Span} {a : Unit} {i : Instruction}
    (item : c.fragment.code.itemAt position = .instruction i) : patch position target span c = .ok a d ↔
      target ≤ wide ∧ (i.opcode = .jump ∨ i.opcode = .jumpUnless) ∧ ∃ bytes,
        Instruction.encode ⟨i.opcode, [target]⟩ = .ok bytes ∧
        d = { c with fragment := { c.fragment with code := c.fragment.code.write position bytes } } := by
  simp only [patch, bind_ok, checkLimit_ok, get_ok]
  constructor
  · rintro ⟨_, _, ⟨small, rfl⟩, _, _, ⟨rfl, rfl⟩, run⟩
    rw [Code.byte_of_itemAt item] at run
    simp only at run
    split at run
    · rename_i jumps
      cases encoded : Instruction.encode ⟨i.opcode, [target]⟩ with
      | ok bytes =>
        rw [encoded] at run
        exact ⟨small, by simpa using jumps, bytes, rfl, modify_ok.mp run⟩
      | error m =>
        rw [encoded] at run
        cases run
    · cases run
  · rintro ⟨small, jumps, bytes, encoded, rfl⟩
    refine ⟨(), c, ⟨small, rfl⟩, c, c, ⟨rfl, rfl⟩, ?_⟩
    rw [Code.byte_of_itemAt item]
    simp only
    rw [if_pos (by simpa using jumps), encoded]
    exact modify_ok.mpr rfl

theorem patch_beside {op : OpCode} {xs ys : List Nat} {js₁ js₂ is₁ is₂ : List Instruction} {place target : Nat} {span : Span}
    (beside : Beside before (js₁ ++ ⟨op, xs⟩ :: js₂) (is₁ ++ ⟨op, ys⟩ :: is₂) c d)
    (front : js₁.map Instruction.opcode = is₁.map Instruction.opcode)
    (here : place = OpCode.widths (is₁.map Instruction.opcode))
    (run : patch (before.length + place) (before.length + target) span c = .ok () e) :
    ∃ f, patch place target span d = .ok () f ∧
      Beside before (js₁ ++ ⟨op, [before.length + target]⟩ :: js₂) (is₁ ++ ⟨op, [target]⟩ :: is₂) e f ∧
      c.Levels e ∧ d.Levels f := by
  subst here
  obtain ⟨item, item'⟩ := beside.fragment.items
  rw [front] at item
  obtain ⟨small, jumps, bytes, encoded, rfl⟩ := (patch_ok item).mp run
  have widths : op.operandWidths = [2] := by rcases jumps with rfl | rfl <;> rfl
  have fits : Instruction.Fits [target] op.operandWidths := by
    rw [widths]
    exact ⟨Nat.lt_of_le_of_lt (Nat.le_trans (Nat.le_add_left ..) small) (by decide), trivial⟩
  obtain ⟨others, encoded'⟩ := Instruction.encode_fits (i := ⟨op, [target]⟩) fits
  refine ⟨_, (patch_ok item').mpr ⟨Nat.le_trans (Nat.le_add_left ..) small, jumps, others, encoded', rfl⟩,
    ⟨beside.constants, beside.symbols, beside.fragment.write front encoded encoded'⟩, ⟨rfl, rfl⟩, ⟨rfl, rfl⟩⟩

theorem conditional_shifts (span : Span) {condition yes no : Compiling Unit} (one : Shifts condition)
    (two : Shifts (branch yes)) (three : Shifts no) : Shifts (conditional span condition yes no) := by
  intro before js is c d e beside run
  obtain ⟨⟨⟩, c1, tested, run⟩ := bind_ok.mp run
  obtain ⟨skip, c1', here, run⟩ := bind_ok.mp run
  obtain ⟨rfl, rfl⟩ := position_ok.mp here
  obtain ⟨⟨⟩, c2, skipped, run⟩ := bind_ok.mp run
  obtain ⟨⟨⟩, c3, taken, run⟩ := bind_ok.mp run
  obtain ⟨leap, c3', here, run⟩ := bind_ok.mp run
  obtain ⟨rfl, rfl⟩ := position_ok.mp here
  obtain ⟨⟨⟩, c4, jumped, run⟩ := bind_ok.mp run
  obtain ⟨target, c4', here, run⟩ := bind_ok.mp run
  obtain ⟨rfl, rfl⟩ := position_ok.mp here
  obtain ⟨⟨⟩, c5, patched, run⟩ := bind_ok.mp run
  obtain ⟨⟨⟩, c6, other, run⟩ := bind_ok.mp run
  obtain ⟨target, c6', here, repatched⟩ := bind_ok.mp run
  obtain ⟨rfl, rfl⟩ := position_ok.mp here
  -- The same steps by themselves.
  obtain ⟨d1, new1, ran1, b1, l1, l1'⟩ := one _ _ _ _ _ _ beside tested
  obtain ⟨d2, ran2, b2, l2, l2'⟩ := emit_beside b1 skipped
  obtain ⟨d3, new2, ran3, b3, l3, l3'⟩ := two _ _ _ _ _ _ b2 taken
  obtain ⟨d4, ran4, b4, l4, l4'⟩ := emit_beside b3 jumped
  rw [b1.fragment.size, b4.fragment.size] at patched
  have b4' : Beside before ((js ++ new1.map (raise before.length)) ++ ⟨.jumpUnless, [placeholder]⟩ ::
      (new2.map (raise before.length) ++ [⟨.jump, [placeholder]⟩]))
      ((is ++ new1) ++ ⟨.jumpUnless, [placeholder]⟩ :: (new2 ++ [⟨.jump, [placeholder]⟩])) c4' d4 := by simpa using b4
  obtain ⟨d5, ran5, b5, l5, l5'⟩ := patch_beside b4' b1.fragment.opcodes b1.fragment.size_alone patched
  obtain ⟨d6, new3, ran6, b6, l6, l6'⟩ := three _ _ _ _ _ _ b5 other
  rw [b3.fragment.size, b6.fragment.size] at repatched
  have b6' : Beside before
      ((js ++ new1.map (raise before.length) ++ ⟨.jumpUnless, [before.length + d4.fragment.code.size]⟩ ::
        new2.map (raise before.length)) ++ ⟨.jump, [placeholder]⟩ :: new3.map (raise before.length))
      ((is ++ new1 ++ ⟨.jumpUnless, [d4.fragment.code.size]⟩ :: new2) ++ ⟨.jump, [placeholder]⟩ :: new3) c6' d6 := by
    simpa using b6
  have opcodes := b3.fragment.opcodes
  obtain ⟨f, ran7, b7, l7, l7'⟩ := patch_beside b6' (by simpa using opcodes)
    (by rw [b3.fragment.size_alone]; simp) repatched
  refine ⟨f, new1 ++ ⟨.jumpUnless, [d4.fragment.code.size]⟩ :: (new2 ++ ⟨.jump, [d6.fragment.code.size]⟩ :: new3), ?_, ?_,
    l1.trans (l2.trans (l3.trans (l4.trans (l5.trans (l6.trans l7))))),
    l1'.trans (l2'.trans (l3'.trans (l4'.trans (l5'.trans (l6'.trans l7')))))⟩
  · simp only [conditional, bind_ok, position_ok]
    exact ⟨(), d1, ran1, _, d1, ⟨rfl, rfl⟩, (), d2, ran2, (), d3, ran3, _, d3, ⟨rfl, rfl⟩, (), d4, ran4, _, d4, ⟨rfl, rfl⟩,
      (), d5, ran5, (), d6, ran6, _, d6, ⟨rfl, rfl⟩, ran7⟩
  · simpa [raise, Nat.add_comm] using b7

theorem declareAll_shifts (span : Span) (names : List String) : Shifts (declareAll span names) := by
  induction names with
  | nil => exact pure_shifts
  | cons name rest ih => exact define_shifts fun _ => ih

theorem madeFrom_shifts (code : Code) (scope : Scope) (parameters : Nat) (span : Span) :
    Shifts (madeFrom code scope parameters span) := by
  refine seq_shifts (loadAll_shifts _) (constant_shifts fun index => ?_)
  split <;> exact emit_shifts _ (by simp) (by simp)

-- What is around a function stays as it is, and does not matter to how the body ends.
theorem finishBody_around (run : finishBody c = .ok () d) (around : List Fragment) :
    d.enclosing = c.enclosing ∧ d.symbols = c.symbols ∧
      finishBody { c with enclosing := around } = .ok () { d with enclosing := around } := by
  have closing {c d : Compiler}
      (run : (if !c.fragment.endsWith .returnValue 0 then emit .returnNull [] else pure ()) c = .ok () d) :
      d.enclosing = c.enclosing ∧ d.symbols = c.symbols ∧
        (if !c.fragment.endsWith .returnValue 0 then emit .returnNull [] else pure ()) { c with enclosing := around } =
          .ok () { d with enclosing := around } := by
    split at run
    · rename_i open_
      obtain ⟨bytes, encoded, rfl⟩ := emit_ok.mp run
      rw [if_pos open_]
      exact ⟨rfl, rfl, emit_ok.mpr ⟨bytes, encoded, rfl⟩⟩
    · rename_i closed
      obtain ⟨-, rfl⟩ := pure_ok.mp run
      rw [if_neg closed]
      exact ⟨rfl, rfl, rfl⟩
  simp only [finishBody, bind_ok, get_ok] at run ⊢
  obtain ⟨_, _, ⟨rfl, rfl⟩, run⟩ := run
  rename_i c
  by_cases popped : c.fragment.endsWith .pop 0 = true
  · simp only [popped, if_true, bind_ok, modify_ok, get_ok] at run
    obtain ⟨⟨⟩, _, rfl, _, _, ⟨rfl, rfl⟩, run⟩ := run
    obtain ⟨enclosing, symbols, again⟩ := closing run
    refine ⟨enclosing, symbols, _, _, ⟨rfl, rfl⟩, ?_⟩
    simp only [popped, if_true, bind_ok, modify_ok, get_ok]
    exact ⟨(), _, rfl, _, _, ⟨rfl, rfl⟩, again⟩
  · rw [if_neg popped] at run
    obtain ⟨_, _, got, run⟩ := bind_ok.mp run
    obtain ⟨rfl, rfl⟩ := get_ok.mp got
    obtain ⟨enclosing, symbols, again⟩ := closing run
    refine ⟨enclosing, symbols, _, _, ⟨rfl, rfl⟩, ?_⟩
    rw [if_neg popped]
    exact bind_ok.mpr ⟨_, _, get_ok.mpr ⟨rfl, rfl⟩, again⟩

theorem makeFunction_run {own : Option (String × Mutability)} {parameters : List String} {span : Span}
    {body : Compiling Unit} {f g h b : Compiler} {code : Code} {scope : Scope} (few : parameters.length ≤ narrow)
    (inside : (do declareAll span parameters; body : Compiling Unit) (entered own c) = .ok () b)
    (finished : finishBody b = .ok () f) (left : leave f = .ok (code, scope) g) (slots : scope.slots ≤ narrow)
    (captures : scope.captures.size ≤ narrow) (made : madeFrom code scope parameters.length span g = .ok () h) :
    makeFunction own parameters span body c = .ok () h := by
  obtain ⟨⟨⟩, a, declared, written⟩ := bind_ok.mp inside
  rw [makeFunction]
  refine bind_ok.mpr ⟨(), c, checkLimit_ok.mpr ⟨few, rfl⟩, ?_⟩
  refine bind_ok.mpr ⟨(), _, modify_ok.mpr rfl, ?_⟩
  have rest : functionSteps parameters span body (entered own c) = .ok () h :=
    bind_ok.mpr ⟨(), a, declared, bind_ok.mpr ⟨(), b, written, bind_ok.mpr ⟨(), f, finished, bind_ok.mpr ⟨_, g, left,
      bind_ok.mpr ⟨(), g, checkLimit_ok.mpr ⟨slots, rfl⟩, bind_ok.mpr ⟨(), g, checkLimit_ok.mpr ⟨captures, rfl⟩, made⟩⟩⟩⟩⟩⟩
  cases own with
  | none => exact rest
  | some pair => exact bind_ok.mpr ⟨(), _, modify_ok.mpr rfl, rest⟩

theorem makeFunction_shifts (own : Option (String × Mutability)) (parameters : List String) (span : Span)
    {body : Compiling Unit} (shifts : Shifts body) : Shifts (makeFunction own parameters span body) := by
  intro before js is c d h beside run
  obtain ⟨few, c1, c2, c3, c4, code, scope, declared, written, finished, left, slots, captures, made⟩ := makeFunction_ok run
  have inside : Beside [] [] [] (entered own c) (entered own d) :=
    ⟨beside.constants, by simp only [entered, beside.symbols], Fragment.beside_empty⟩
  obtain ⟨d2, new, ran, b2, l2, l2'⟩ := seq_shifts (declareAll_shifts span parameters) shifts _ _ _ _ _ _ inside
    (bind_ok.mpr ⟨(), c1, declared, written⟩)
  -- Both bodies are the same, and only what is around them differs.
  simp only [List.length_nil, List.nil_append, funext Instruction.raise_zero, List.map_id'] at b2
  have same : d2 = { c2 with enclosing := d.fragment :: d.enclosing } := by
    obtain ⟨constants, symbols, fragment, enclosing⟩ := d2
    cases b2.constants
    cases b2.symbols
    cases b2.fragment.same
    cases l2'.enclosing
    rfl
  obtain ⟨enclosing, symbols, finished'⟩ := finishBody_around finished (d.fragment :: d.enclosing)
  rw [← same] at finished'
  obtain ⟨around, rest, shape⟩ : ∃ around rest, c3.symbols.enclosing = around :: rest := by
    have scopes := l2.scopes
    rw [← symbols, show (entered own c).symbols.enclosing = _ from (c.symbols.enterAs_shape own).1] at scopes
    exact List.exists_cons_of_length_eq_add_one scopes
  have table : c3.symbols = ⟨c3.symbols.innermost, around :: rest⟩ := by rw [← shape]
  obtain ⟨rfl, rfl, rfl⟩ := leave_ok table (enclosing.trans l2.enclosing) left
  have left' : leave { c3 with enclosing := d.fragment :: d.enclosing } = .ok (c3.fragment.code, c3.symbols.innermost)
      { c3 with symbols := ⟨around, rest⟩, fragment := d.fragment, enclosing := d.enclosing } := by
    unfold leave
    rw [table]
    rfl
  have b4 : Beside before js is { c3 with symbols := ⟨around, rest⟩, fragment := c.fragment, enclosing := c.enclosing }
      { c3 with symbols := ⟨around, rest⟩, fragment := d.fragment, enclosing := d.enclosing } :=
    ⟨rfl, rfl, beside.fragment⟩
  obtain ⟨f, more, made', b5, l5, l5'⟩ := madeFrom_shifts _ _ _ _ _ _ _ _ _ _ b4 made
  have scopes : rest.length = c.symbols.enclosing.length := by
    have scopes := l2.scopes
    rw [← symbols, shape, show (entered own c).symbols.enclosing = _ from (c.symbols.enterAs_shape own).1] at scopes
    simpa using scopes
  refine ⟨f, more, makeFunction_run few ran finished' left' slots captures made', b5, ⟨l5.enclosing, l5.scopes.trans scopes⟩,
    ⟨l5'.enclosing, l5'.scopes.trans ?_⟩⟩
  rw [← beside.symbols]
  exact scopes

end Compiling
end StackScript
