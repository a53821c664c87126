import Mathlib.Logic.Relation
import StackScript.Proofs.Compiler.Shifts

-- What a compiler remembers of the newest instructions of a fragment, and how single edits of a compiler keep it right.
namespace StackScript

-- Bytes are those of one sequence of instructions only.
theorem Instruction.assemble_injective {is js : List Instruction} {bytes : List UInt8}
    (one : assemble is = .ok bytes) (other : assemble js = .ok bytes) : is = js := by
  have filled {i : Instruction} {is : List Instruction} (encoded : assemble (i :: is) = .ok []) : False := by
    have length := assemble_length encoded
    have width := i.opcode.width_pos
    simp only [List.length_nil, List.map_cons, OpCode.widths] at length
    omega
  induction is generalizing js bytes with
  | nil =>
    cases one
    cases js with
    | nil => rfl
    | cons j js => exact (filled other).elim
  | cons i is ih =>
    cases js with
    | nil =>
      cases other
      exact (filled one).elim
    | cons j js =>
      obtain ⟨front, rest, encoded, others, rfl⟩ := assemble_cons.mp one
      obtain ⟨front', rest', encoded', others', same⟩ := assemble_cons.mp other
      have starts {bytes tail : List UInt8} (here : (front ++ rest).toArray.toList = [] ++ (bytes ++ tail)) :
          Code.Holds (front ++ rest).toArray 0 bytes := Code.holds_between here
      have first : Code.itemAt (front ++ rest).toArray 0 = .instruction i := Code.itemAt_holds encoded (starts rfl)
      have first' : Code.itemAt (front ++ rest).toArray 0 = .instruction j := Code.itemAt_holds encoded' (starts same)
      cases first.symm.trans first'
      cases encoded.symm.trans encoded'
      cases List.append_cancel_left same
      rw [ih others others']

def Instruction.newest? (is : List Instruction) : Option Emitted :=
  is.getLast?.map fun i => ⟨i.opcode, OpCode.widths (is.dropLast.map opcode)⟩

@[simp] theorem Instruction.newest?_nil : newest? [] = none := rfl

@[simp] theorem Instruction.newest?_append (is : List Instruction) (i : Instruction) :
    newest? (is ++ [i]) = some ⟨i.opcode, OpCode.widths (is.map opcode)⟩ := by
  simp [newest?]

theorem Instruction.newest?_snoc {is : List Instruction} {e : Emitted} (newest : newest? is = some e) :
    ∃ front i, is = front ++ [i] ∧ e = ⟨i.opcode, OpCode.widths (front.map opcode)⟩ := by
  rcases List.eq_nil_or_concat is with rfl | ⟨front, i, rfl⟩
  · cases newest
  · rw [List.concat_eq_append] at newest ⊢
    rw [newest?_append] at newest
    cases newest
    exact ⟨front, i, rfl, rfl⟩

theorem Instruction.newest?_same {is js : List Instruction} (same : is.map opcode = js.map opcode) :
    newest? is = newest? js := by
  rcases List.eq_nil_or_concat is with rfl | ⟨front, i, rfl⟩
  · rw [List.map_nil] at same
    rw [List.map_eq_nil_iff.mp same.symm]
  · rcases List.eq_nil_or_concat js with rfl | ⟨front', j, rfl⟩
    · simp at same
    · simp only [List.concat_eq_append, List.map_append, List.map_singleton] at same ⊢
      obtain ⟨fronts, last⟩ := List.append_inj' same rfl
      simp only [newest?_append, fronts, List.singleton_inj.mp last]

namespace Fragment

open Instruction (assemble newest?)

-- The bytes are those of whole instructions. The newest instruction is remembered, and the one before it is remembered
-- or forgotten.
structure Exact (f : Fragment) (is : List Instruction) : Prop where
  whole : assemble is = .ok f.code.toList
  last : f.last = newest? is
  previous : ∀ e, f.previous = some e → newest? is.dropLast = some e

-- What stands before a pop is no pop, and is remembered for as long as the pop may be taken back.
structure Recorded (f : Fragment) (is : List Instruction) : Prop extends f.Exact is where
  undo : ∀ e, f.last = some e → e.opcode = .pop →
    f.previous = newest? is.dropLast ∧ ∀ p, f.previous = some p → p.opcode ≠ .pop

variable {f : Fragment} {is : List Instruction}

theorem Exact.filled (exact : f.Exact is) : f.last.isSome = true ↔ 0 < f.code.size := by
  have size : f.code.size = OpCode.widths (is.map Instruction.opcode) := by
    rw [← Array.length_toList, Instruction.assemble_length exact.whole]
  rw [exact.last, size]
  rcases List.eq_nil_or_concat is with rfl | ⟨front, i, rfl⟩
  · simp [OpCode.widths]
  · have width := i.opcode.width_pos
    simp only [List.concat_eq_append, Instruction.newest?_append, Option.isSome_some, true_iff, List.map_append,
      List.map_singleton, OpCode.widths_append, OpCode.widths_one]
    omega

theorem Exact.inside (exact : f.Exact is) {e : Emitted} (last : f.last = some e) : e.position < f.code.size := by
  obtain ⟨front, i, rfl, rfl⟩ := Instruction.newest?_snoc (exact.last.symm.trans last)
  have width := i.opcode.width_pos
  rw [← Array.length_toList, Instruction.assemble_length exact.whole]
  simp only [List.map_append, List.map_singleton, OpCode.widths_append, OpCode.widths_one]
  omega

theorem Exact.beside (exact : f.Exact is) : f.Beside [] is is f := by
  have remembers (js : List Instruction) (a : Option Emitted) (known : ∀ e, a = some e → newest? js = some e) :
      Remembers 0 (js.map Instruction.opcode) a a := by
    cases a with
    | none => exact .inl ⟨rfl, by simp⟩
    | some e =>
      obtain ⟨front, i, rfl, rfl⟩ := Instruction.newest?_snoc (known e rfl)
      exact .inr ⟨front.map Instruction.opcode, i.opcode, by simp, rfl, by simp⟩
  refine ⟨⟨_, exact.whole, rfl⟩, exact.whole, rfl, remembers _ _ fun e last => exact.last.symm.trans last, ?_⟩
  rw [← List.map_dropLast]
  exact remembers _ _ exact.previous

theorem empty_recorded : Fragment.empty.Recorded [] :=
  ⟨⟨rfl, rfl, fun _ nothing => by cases nothing⟩, fun _ nothing => by cases nothing⟩

theorem Recorded.append {op : OpCode} {operands : List Nat} {bytes : List UInt8} (recorded : f.Recorded is)
    (apart : op = .pop → ∀ e, f.last = some e → e.opcode ≠ .pop)
    (encoded : Instruction.encode ⟨op, operands⟩ = .ok bytes) :
    (f.append op bytes).Recorded (is ++ [⟨op, operands⟩]) := by
  have appended := recorded.beside.append encoded encoded
  refine ⟨⟨appended.alone, ?_, ?_⟩, ?_⟩
  · rw [Instruction.newest?_append, ← recorded.beside.size_alone]
    rfl
  · intro e previous
    rw [List.dropLast_concat, ← recorded.last]
    exact previous
  · intro e last popped
    cases last
    rw [List.dropLast_concat, ← recorded.last]
    exact ⟨rfl, apart popped⟩

-- The pop that is taken back is followed by no other, since what stands before it is none.
theorem Recorded.dropLast {e : Emitted} (recorded : f.Recorded is) (last : f.last = some e) (popped : e.opcode = .pop) :
    f.dropLast.Recorded is.dropLast := by
  have ends : f.endsWith .pop 0 = true := by simp [endsWith, last, popped]
  have dropped := recorded.beside.dropLast ends
  obtain ⟨previous, apart⟩ := recorded.undo e last popped
  have shape : f.dropLast = ⟨f.code.shrink e.position, f.previous, none⟩ := by rw [Fragment.dropLast, last]
  refine ⟨⟨dropped.alone, ?_, ?_⟩, ?_⟩
  · rw [shape]
    exact previous
  · rw [shape]
    intro p nothing
    cases nothing
  · rw [shape]
    intro p newest popped
    exact absurd popped (apart p newest)

theorem Recorded.replaceLast {e : Emitted} (recorded : f.Recorded is) (last : f.last = some e) (popped : e.opcode = .pop) :
    (f.replaceLast .returnValue).Recorded (is.dropLast ++ [⟨.returnValue, []⟩]) := by
  obtain ⟨front, i, rfl, rfl⟩ := Instruction.newest?_snoc (recorded.last.symm.trans last)
  obtain ⟨bytes, rest, first, one, code⟩ := Instruction.assemble_append.mp recorded.whole
  have single : rest.length = 1 := by
    have pop : i.opcode = .pop := popped
    rw [Instruction.encode_length (Instruction.assemble_one.mp one), pop]
    rfl
  obtain ⟨b, rfl⟩ := List.length_eq_one_iff.mp single
  have written : (f.replaceLast .returnValue).code.toList = bytes ++ [OpCode.returnValue.byte] := by
    simp only [Fragment.replaceLast, last, Array.toList_setIfInBounds, code, ← Instruction.assemble_length first]
    simp
  rw [List.dropLast_concat]
  refine ⟨⟨?_, ?_, ?_⟩, ?_⟩
  · rw [written]
    exact Instruction.assemble_append.mpr ⟨_, _, first, rfl, rfl⟩
  · simp [Fragment.replaceLast, last]
  · intro p previous
    rw [Fragment.replaceLast, last] at previous
    have known := recorded.previous p previous
    rwa [List.dropLast_concat] at known ⊢
  · intro p newest popped
    rw [Fragment.replaceLast, last] at newest
    cases newest
    cases popped

theorem Recorded.write {op : OpCode} {xs ys : List Nat} {front back : List Instruction} {bytes : List UInt8}
    (recorded : f.Recorded (front ++ ⟨op, xs⟩ :: back)) (encoded : Instruction.encode ⟨op, ys⟩ = .ok bytes) :
    Fragment.Recorded { f with code := f.code.write (OpCode.widths (front.map Instruction.opcode)) bytes }
      (front ++ ⟨op, ys⟩ :: back) := by
  have written := recorded.beside.write rfl encoded encoded
  have newest : newest? (front ++ ⟨op, xs⟩ :: back) = newest? (front ++ ⟨op, ys⟩ :: back) :=
    Instruction.newest?_same (by simp)
  have before : newest? (front ++ ⟨op, xs⟩ :: back).dropLast = newest? (front ++ ⟨op, ys⟩ :: back).dropLast :=
    Instruction.newest?_same (by simp [List.map_dropLast])
  refine ⟨⟨written.alone, recorded.last.trans newest, fun e previous => ?_⟩, fun e last popped => ?_⟩
  · rw [← before]
    exact recorded.previous e previous
  · rw [← before]
    exact recorded.undo e last popped

end Fragment

-- Every open function has a scope and a fragment, and so has the main program.
structure Compiler.Recorded (c : Compiler) : Prop where
  scopes : (c.fragment :: c.enclosing).length = c.symbols.depth + 1
  fragments : ∀ f ∈ c.fragment :: c.enclosing, ∃ is, f.Recorded is

namespace Compiler

open Compiling (emit patch addConstant define resolve enter leave)

-- Single edits. A pop is written behind no pop; only a pop is taken back or replaced; only a jump that was written is
-- pointed to a target.
inductive Edit : Compiler → Compiler → Prop where
  | emit {op : OpCode} {operands : List Nat} {c d : Compiler} :
      (op = .pop → ∀ e, c.fragment.last = some e → e.opcode ≠ .pop) → emit op operands c = .ok () d → Edit c d
  | dropLast {c : Compiler} {e : Emitted} : c.fragment.last = some e → e.opcode = .pop →
      Edit c { c with fragment := c.fragment.dropLast }
  | replaceLast {c : Compiler} {e : Emitted} : c.fragment.last = some e → e.opcode = .pop →
      Edit c { c with fragment := c.fragment.replaceLast .returnValue }
  | patch {front back : List Instruction} {i : Instruction} {target : Nat} {span : Span} {c d : Compiler} :
      Instruction.assemble (front ++ i :: back) = .ok c.fragment.code.toList →
      patch (OpCode.widths (front.map Instruction.opcode)) target span c = .ok () d → Edit c d
  | addConstant {v : Value} {span : Span} {index : Nat} {c d : Compiler} : addConstant v span c = .ok index d → Edit c d
  | define {name : String} {mutability : Mutability} {span : Span} {symbol : Symbol} {c d : Compiler} :
      define name mutability span c = .ok symbol d → Edit c d
  | resolve {name : String} {span : Span} {symbol : Symbol} {c d : Compiler} :
      resolve name span c = .ok symbol d → Edit c d
  | defineItself {name : String} {mutability : Mutability} {c : Compiler} :
      Edit c { c with symbols := (c.symbols.defineItself name mutability).2 }
  | enter {c d : Compiler} : enter c = .ok () d → Edit c d
  | leave {code : Code} {scope : Scope} {c d : Compiler} : leave c = .ok (code, scope) d → Edit c d

def Edits : Compiler → Compiler → Prop := Relation.ReflTransGen Edit

variable {c d : Compiler}

theorem Recorded.innermost (recorded : c.Recorded) : ∃ is, c.fragment.Recorded is :=
  recorded.fragments _ List.mem_cons_self

theorem Recorded.fragment (recorded : c.Recorded) {f : Fragment} {is : List Instruction} (changed : f.Recorded is) :
    Recorded { c with fragment := f } := by
  refine ⟨recorded.scopes, fun g present => ?_⟩
  rcases List.mem_cons.mp present with rfl | outer
  · exact ⟨is, changed⟩
  · exact recorded.fragments g (List.mem_cons_of_mem _ outer)

theorem Recorded.table (recorded : c.Recorded) {t : SymbolTable} (depth : t.depth = c.symbols.depth) :
    Recorded { c with symbols := t } :=
  ⟨recorded.scopes.trans (congrArg (· + 1) depth.symm), recorded.fragments⟩

theorem Recorded.enter (recorded : c.Recorded) :
    Recorded { c with symbols := c.symbols.enter, fragment := .empty, enclosing := c.fragment :: c.enclosing } := by
  refine ⟨congrArg (· + 1) recorded.scopes, fun f present => ?_⟩
  rcases List.mem_cons.mp present with rfl | outer
  · exact ⟨[], Fragment.empty_recorded⟩
  · exact recorded.fragments f outer

theorem Recorded.leave (recorded : c.Recorded) {code : Code} {scope : Scope} (left : leave c = .ok (code, scope) d) :
    d.Recorded := by
  rw [Compiling.leave] at left
  split at left
  · rename_i inner table outer rest closing open_
    cases left
    have depth : c.symbols.depth = table.depth + 1 := by
      rw [SymbolTable.leave?] at closing
      split at closing
      · cases closing
      · rename_i enclosing
        cases closing
        simp [SymbolTable.depth, enclosing]
    have scopes := recorded.scopes
    rw [open_, depth] at scopes
    refine ⟨Nat.succ.inj scopes, fun f present => recorded.fragments f (List.mem_cons_of_mem _ ?_)⟩
    rw [open_]
    exact present
  · cases left
    exact recorded

theorem Edit.recorded (edit : Edit c d) (recorded : c.Recorded) : d.Recorded := by
  obtain ⟨is, innermost⟩ := recorded.innermost
  cases edit with
  | emit apart run =>
    obtain ⟨bytes, encoded, rfl⟩ := Compiling.emit_ok.mp run
    exact recorded.fragment (innermost.append apart encoded)
  | dropLast last popped => exact recorded.fragment (innermost.dropLast last popped)
  | replaceLast last popped => exact recorded.fragment (innermost.replaceLast last popped)
  | @patch front back i target span _ _ assembled run =>
    obtain rfl := Instruction.assemble_injective innermost.whole assembled
    obtain ⟨-, item⟩ := innermost.beside.items
    obtain ⟨-, -, bytes, encoded, rfl⟩ := (Compiling.patch_ok item).mp run
    exact recorded.fragment (innermost.write encoded)
  | addConstant run =>
    obtain ⟨-, -, rfl⟩ := Compiling.addConstant_ok.mp run
    exact ⟨recorded.scopes, recorded.fragments⟩
  | define run =>
    obtain ⟨table, defined, rfl⟩ := Compiling.define_ok.mp run
    exact recorded.table (SymbolTable.define_grows defined).depth
  | resolve run =>
    obtain ⟨table, found, rfl⟩ := Compiling.resolve_ok.mp run
    have counts := congrArg List.length (SymbolTable.resolve_counts found)
    simp only [SymbolTable.counts, List.length_cons, List.length_map, Nat.succ.injEq] at counts
    exact recorded.table counts
  | defineItself => exact recorded.table rfl
  | enter run =>
    cases Compiling.modify_ok.mp run
    exact recorded.enter
  | leave left => exact recorded.leave left

theorem Edits.recorded (edits : Edits c d) (recorded : c.Recorded) : d.Recorded := by
  induction edits with
  | refl => exact recorded
  | tail _ edit ih => exact edit.recorded ih

end Compiler
end StackScript
