import Mathlib.Data.List.Nodup
import StackScript.Proofs.Compiler.Panics

-- Programs that a compiler panics on, and that it panics on no others.
namespace StackScript

namespace Compiling

def Panics {α : Type} (m : Compiling α) (c : Compiler) (d : Defect) : Prop := ∃ e, m c = .error (.defect d) e

variable {α β : Type} {c d : Compiler} {defect : Defect}

theorem Panics.first {x : Compiling α} (panics : Panics x c defect) (f : α → Compiling β) : Panics (x >>= f) c defect := by
  obtain ⟨e, run⟩ := panics
  exact ⟨e, by simp only [bind, EStateM.bind, run]⟩

theorem Panics.second {x : Compiling α} {f : α → Compiling β} {a : α} (run : x c = .ok a d)
    (panics : Panics (f a) d defect) : Panics (x >>= f) c defect := by
  obtain ⟨e, later⟩ := panics
  exact ⟨e, by simp only [bind, EStateM.bind, run, later]⟩

theorem statements_ran {front back : List Stmt} (run : statements front c = .ok () d)
    (panics : Panics (statements back) d defect) : Panics (statements (front ++ back)) c defect := by
  induction front generalizing c with
  | nil =>
    obtain ⟨-, rfl⟩ := pure_ok.mp run
    exact panics
  | cons s rest ih =>
    obtain ⟨⟨⟩, e, first, others⟩ := bind_ok.mp run
    exact .second first (ih others)

theorem emit_runs (op : OpCode) (operands : List Nat) (fits : Instruction.Fits operands op.operandWidths) :
    ∃ d, emit op operands c = .ok () d ∧ d.symbols = c.symbols := by
  obtain ⟨bytes, encoded⟩ := Instruction.encode_fits (i := ⟨op, operands⟩) fits
  exact ⟨{ c with fragment := c.fragment.append op bytes }, by simp only [emit, encoded], rfl⟩

theorem emit_panics (op : OpCode) {n width : Nat} (widths : op.operandWidths = [width]) (large : ¬ n < byteRange width) :
    Panics (emit op [n]) c (.misfit (.operandRange op n width)) := by
  refine ⟨c, ?_⟩
  rw [emit, encode_one widths large]

theorem checkLimit_runs {value limit : Nat} (within : value ≤ limit) (what : String) (span : Span) :
    checkLimit value limit what span c = .ok () c := by
  rw [checkLimit, if_neg (Nat.not_lt.mpr within)]
  rfl

theorem define_runs {name : String} (free : c.symbols.innermost.declares name = false) (mutability : Mutability)
    (span : Span) : ∃ symbol d, define name mutability span c = .ok symbol d ∧
      symbol = ⟨name, c.symbols.innermost.slots, mutability, if c.symbols.isGlobal then .global else .frame⟩ ∧
      d.symbols.innermost.slots = c.symbols.innermost.slots + 1 ∧ d.symbols.enclosing = c.symbols.enclosing ∧
      ∀ x, d.symbols.innermost.symbols[x]? = if name = x then some symbol else c.symbols.innermost.symbols[x]? := by
  refine ⟨_, { c with symbols := ⟨{ c.symbols.innermost.bind ⟨name, c.symbols.innermost.slots, mutability,
    if c.symbols.isGlobal then .global else .frame⟩ with slots := c.symbols.innermost.slots + 1 },
    c.symbols.enclosing⟩ }, ?_, rfl, rfl, rfl, fun x => Scope.bind_symbols _ _ x⟩
  simp only [define, SymbolTable.define, free, Bool.false_eq_true, if_false]
  rfl

theorem makeFunction_panics {parameters : List String} {body : Compiling Unit} (span : Span)
    (few : parameters.length ≤ 255) (declared : declareAll span parameters (entered none c) = .ok () d)
    (panics : Panics body d defect) : Panics (makeFunction none parameters span body) c defect := by
  refine .second (checkLimit_runs few _ _) ?_
  exact .second (rfl : enter c = .ok () (entered none c)) (.second declared (.first panics _))

end Compiling

namespace SymbolTable

end SymbolTable

namespace Compiling

variable {c : Compiler}

def mention (x : String) : Stmt := .expression .unknown (.identifier .unknown x)

theorem declarations_run {names : List String} (global : c.symbols.enclosing = []) (distinct : names.Nodup)
    (free : ∀ x ∈ names, c.symbols.innermost.declares x = false)
    (few : c.symbols.innermost.slots + names.length ≤ 65536) :
    ∃ d, statements (names.map fun x => .declare .unknown .fixed x (.boolean .unknown true)) c = .ok () d ∧
      d.symbols.enclosing = [] ∧ d.symbols.innermost.slots = c.symbols.innermost.slots + names.length ∧
      ∀ x, x ∉ names → d.symbols.innermost.symbols[x]? = c.symbols.innermost.symbols[x]? := by
  induction names generalizing c with
  | nil => exact ⟨c, rfl, global, rfl, fun _ _ => rfl⟩
  | cons name rest ih =>
    obtain ⟨absent, distinct⟩ := List.nodup_cons.mp distinct
    rw [List.length_cons] at few
    obtain ⟨b, pushed, kept⟩ := emit_runs (c := c) .pushTrue [] trivial
    rw [← kept] at free few global
    obtain ⟨symbol, d, defined, rfl, slots, enclosing, found⟩ :=
      define_runs (free name List.mem_cons_self) .fixed .unknown
    have outermost : b.symbols.isGlobal = true := by simp [SymbolTable.isGlobal, global]
    simp only [outermost, if_true] at defined found
    obtain ⟨e, written, kept'⟩ := emit_runs (c := d) .setGlobal [b.symbols.innermost.slots]
      ⟨show b.symbols.innermost.slots < 65536 by omega, trivial⟩
    have stored : store ⟨name, b.symbols.innermost.slots, .fixed, .global⟩ .unknown d = .ok () e := by
      simp only [store, if_true]
      exact bind_ok.mpr ⟨(), d, checkLimit_runs (show b.symbols.innermost.slots ≤ 65535 by omega) _ _, written⟩
    have first : statement (.declare .unknown .fixed name (.boolean .unknown true)) c = .ok () e :=
      bind_ok.mpr ⟨(), b, pushed, bind_ok.mpr ⟨_, d, defined, stored⟩⟩
    rw [← kept'] at enclosing slots found
    obtain ⟨f, others, outer, total, same⟩ := ih (enclosing.trans global) distinct (fun x present => by
      have different : name ≠ x := by rintro rfl; exact absent present
      rw [Scope.declares, found, if_neg different]
      exact free x (List.mem_cons_of_mem _ present)) (by omega)
    refine ⟨f, bind_ok.mpr ⟨(), e, first, others⟩, outer, ?_, fun x absent => ?_⟩
    · rw [total, slots, kept, List.length_cons]
      omega
    · obtain ⟨different, later⟩ := not_or.mp (mt List.mem_cons.mpr absent)
      rw [same x later, found, if_neg (Ne.symm different), kept]

end Compiling

open Compiling (Panics)

theorem new_declares_nothing (x : String) : Compiler.new.symbols.innermost.declares x = false := by
  have outermost : Compiler.new.symbols.innermost.Outermost := Compiler.nativeNames_valid.1
  have zero : Compiler.new.symbols.innermost.slots = 0 := by decide +kernel
  rw [Scope.declares]
  cases found : Compiler.new.symbols.innermost.symbols[x]? with
  | none => rfl
  | some symbol =>
    rcases outermost.stored x symbol found with ⟨-, below⟩ | ⟨native, -⟩
    · rw [zero] at below
      exact absurd below (Nat.not_lt_zero _)
    · simp only [native]
      decide

-- Behind 65536 global names a function that can be assigned mentions its own name.
def Program.populous (names : List String) (name : String) (use : Stmt) : Program :=
  ⟨names.map (fun x => .declare .unknown .fixed x (.boolean .unknown true)) ++
    [.declare .unknown .assignable name (.function .unknown none [] [use])], none⟩

theorem populous_panics {names : List String} {name : String} {use : Stmt} {defect : Defect}
    (distinct : (name :: names).Nodup) (many : names.length = 65536)
    (large : ∀ c, c.symbols.resolve name = .ok (⟨name, 65536, .assignable, .global⟩, c.symbols) →
      Panics (Compiling.statement use) c defect) : Panics (Compiler.compile (.populous names name use)) .new defect := by
  obtain ⟨absent, distinct⟩ := List.nodup_cons.mp distinct
  have zero : Compiler.new.symbols.innermost.slots = 0 := by decide +kernel
  obtain ⟨c, run, global, slots, same⟩ := Compiling.declarations_run (c := .new) Compiler.nativeNames_valid.2 distinct
    (fun x _ => new_declares_nothing x) (by omega)
  have free : c.symbols.innermost.declares name = false := by
    rw [Scope.declares, same name absent]
    exact new_declares_nothing name
  obtain ⟨symbol, d, defined, rfl, -, enclosing, found⟩ := Compiling.define_runs free .assignable .unknown
  have outer : c.symbols.isGlobal = true := by simp [SymbolTable.isGlobal, global]
  have index : c.symbols.innermost.slots = 65536 := by omega
  simp only [outer, if_true, index] at defined found
  refine Compiling.statements_ran run (.first ?_ _)
  rw [Compiling.statement]
  refine .second (show (get : Compiling Compiler) c = .ok c c from rfl) ?_
  simp only [outer, decide_true, Bool.and_self, if_true]
  refine .second defined (.first (Compiling.makeFunction_panics .unknown (show [].length ≤ 255 from Nat.zero_le _) rfl ?_) _)
  -- The name is found in the scope around, which is the global one.
  refine .first (large _ ?_) _
  have symbols : (Compiling.entered none d).symbols = ⟨.empty, [d.symbols.innermost]⟩ := by
    rw [← enclosing.trans global]
    rfl
  simp only [SymbolTable.resolve, symbols, SymbolTable.resolveIn, Scope.empty_symbols, found, if_true, Option.map_some]

theorem populous_reads_panics {names : List String} {name : String} (distinct : (name :: names).Nodup)
    (many : names.length = 65536) :
    Panics (Compiler.compile (.populous names name (Compiling.mention name))) .new
      (.misfit (.operandRange .getGlobal 65536 2)) := by
  refine populous_panics distinct many fun c resolved => .first (.second (Compiling.resolve_ok.mpr ⟨_, resolved, rfl⟩) ?_) _
  exact Compiling.emit_panics .getGlobal rfl (show ¬ 65536 < byteRange 2 by decide)

theorem populous_assigns_panics {names : List String} {name : String} (distinct : (name :: names).Nodup)
    (many : names.length = 65536) :
    Panics (Compiler.compile (.populous names name (.assign .unknown name (.boolean .unknown true)))) .new
      (.misfit (.operandRange .assignGlobal 65536 2)) := by
  refine populous_panics distinct many fun c resolved => ?_
  obtain ⟨d, pushed, kept⟩ := Compiling.emit_runs (c := c) .pushTrue [] trivial
  rw [← kept] at resolved
  refine .second pushed (.second (Compiling.resolve_ok.mpr ⟨_, resolved, rfl⟩) ?_)
  exact Compiling.emit_panics .assignGlobal rfl (show ¬ 65536 < byteRange 2 by decide)

theorem Compiling.statements_keeps (body : List Stmt) : Compiling.Keeps (Compiling.statements body) .new fun _ _ => True := by
  have ready := Compiler.resume_ready Compiler.nativeNames_valid.1 #[]
  have small : SymbolTable.SmallInside Compiler.new.symbols.counts := by
    have zero : Compiler.new.symbols.counts = [0] := by decide +kernel
    rw [zero]
    exact Nat.zero_le _
  have limited := Compiling.statements_limited (Compiling.body_writes body) (Compiling.body_limited body)
  exact Compiling.keeps_mono (limited Compiler.new ready small) fun _ _ _ _ => trivial

end StackScript
