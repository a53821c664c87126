import StackScript.Proofs.Compiler.Trees

-- What stops a compiler other than an error that it reports. The limit of every kind of operand is checked before an
-- instruction with such an operand is written, but for two kinds of name that are read while they are still being
-- counted.
namespace StackScript

namespace SymbolTable

-- One more than the limits, as the limit is checked when a name gets its value. While a global function is compiled,
-- its own name may already be the one too many.
def SmallAround : List Nat → Prop
  | [] => True
  | [n] => n ≤ 65537
  | n :: rest => n ≤ 256 ∧ SmallAround rest

def SmallInside : List Nat → Prop
  | [n] => n ≤ 65536
  | counts => SmallAround counts

theorem SmallInside.around {counts : List Nat} (small : SmallInside counts) : SmallAround counts := by
  unfold SmallInside at small
  split at small
  · simp only [SmallAround]
    omega
  · exact small

theorem define_counts {t u : SymbolTable} {name : String} {mutability : Mutability} {symbol : Symbol}
    (defined : t.define name mutability = .ok (symbol, u)) :
    symbol.index = t.innermost.slots ∧ u.counts = (t.innermost.slots + 1) :: t.enclosing.map Scope.slots ∧
      (symbol.storage = .global ↔ t.enclosing = []) := by
  obtain ⟨-, rfl, rfl⟩ := define_ok defined
  refine ⟨rfl, rfl, ?_⟩
  simp [isGlobal]

end SymbolTable

-- The panics that a program can bring about. A captured name is read with its number before the captured names of the
-- function are counted, and a global function sees its own name before the global names are counted.
def Defect.Known (d : Defect) (c : Compiler) : Prop :=
  (∃ n, d = .misfit (.operandRange .getFree n 1) ∧ 256 ≤ n ∧ n < c.symbols.innermost.captures.size) ∨
  ((d = .misfit (.operandRange .getGlobal 65536 2) ∨ d = .misfit (.operandRange .assignGlobal 65536 2)) ∧
    c.symbols.globals = 65537 ∧ c.symbols.enclosing ≠ [])

namespace Compiling

-- A step that reports an error, or panics as a program can make it, or else leaves what is wanted.
def Keeps {α : Type} (x : Compiling α) (c : Compiler) (Q : α → Compiler → Prop) : Prop :=
  match x c with
  | .ok a d => Q a d
  | .error (.error _) _ => True
  | .error (.defect d) e => d.Known e

variable {α β : Type} {c : Compiler}

theorem keeps_bind {x : Compiling α} {f : α → Compiling β} {Q : β → Compiler → Prop}
    (first : Keeps x c fun a d => Keeps (f a) d Q) : Keeps (x >>= f) c Q := by
  unfold Keeps at first ⊢
  simp only [bind, EStateM.bind]
  cases run : x c with
  | ok a d => simpa only [run] using first
  | error r d =>
    rw [run] at first
    cases r <;> exact first

theorem keeps_mono {x : Compiling α} {P Q : α → Compiler → Prop} (first : Keeps x c P)
    (each : ∀ a d, x c = .ok a d → P a d → Q a d) : Keeps x c Q := by
  unfold Keeps at first ⊢
  cases run : x c with
  | ok a d =>
    rw [run] at first
    exact each a d run first
  | error r d =>
    rw [run] at first
    cases r <;> exact first

theorem keeps_then {x : Compiling α} {f : α → Compiling β} {P : α → Compiler → Prop} {Q : β → Compiler → Prop}
    (first : Keeps x c P) (next : ∀ a d, x c = .ok a d → P a d → Keeps (f a) d Q) : Keeps (x >>= f) c Q :=
  keeps_bind (keeps_mono first next)

theorem keeps_get {f : Compiler → Compiling β} {Q : β → Compiler → Prop} (next : Keeps (f c) c Q) :
    Keeps (get >>= f) c Q := next

theorem checkLimit_keeps (value limit : Nat) (what : String) (span : Span) :
    Keeps (checkLimit value limit what span) c fun _ d => value ≤ limit ∧ d = c := by
  unfold Keeps checkLimit
  split
  · rename_i u d equal
    split at equal
    · cases equal
    · cases equal
      exact ⟨by omega, rfl⟩
  · trivial
  · rename_i d e equal
    split at equal <;> cases equal

theorem emit_keeps {op : OpCode} {operands : List Nat} (fits : Instruction.Fits operands op.operandWidths) :
    Keeps (emit op operands) c fun _ d => d.symbols = c.symbols := by
  obtain ⟨bytes, encoded⟩ := Instruction.encode_fits (i := ⟨op, operands⟩) fits
  unfold Keeps emit
  rw [encoded]

-- How far the index of a name can go.
def Indexed (symbol : Symbol) (t : SymbolTable) : Prop :=
  match symbol.storage with
  | .global => symbol.index < 65536 ∨ (symbol.index = 65536 ∧ t.globals = 65537 ∧ t.enclosing ≠ [])
  | .frame | .native => symbol.index < 256
  | .captured => symbol.index < t.innermost.captures.size
  | .itself => True

theorem kept_indexed {t : SymbolTable} {symbol : Symbol} (valid : t.Valid)
    (kept : SymbolTable.Kept symbol t.innermost t.enclosing) (around : SymbolTable.SmallAround t.counts)
    (outer : symbol.storage = .global → SymbolTable.SmallInside t.counts) : Indexed symbol t := by
  obtain ⟨s, rest⟩ := t
  have globals : (SymbolTable.outermostIn s rest).slots ≤ 65537 := by
    clear valid kept outer
    induction rest generalizing s with
    | nil => exact around
    | cons next rest ih => exact ih _ around.2
  rcases kept with outside | ⟨nested, inside⟩
  · rcases (SymbolTable.ValidIn.outermost valid).stored _ symbol outside with ⟨storage, below⟩ | ⟨storage, below⟩
    · simp only at below
      simp only [Indexed, storage]
      by_cases full : symbol.index < 65536
      · exact .inl full
      · refine .inr ⟨by omega, ?_, ?_⟩
        · simp only [SymbolTable.globals]
          omega
        · rintro rfl
          have small : s.slots ≤ 65536 := outer storage
          simp only [SymbolTable.outermostIn] at below
          omega
    · simp only [Indexed, storage]
      exact Nat.lt_trans below (by decide)
  · cases rest with
    | nil => exact absurd rfl nested
    | cons next rest =>
      rcases valid.1.stored _ symbol inside with ⟨storage, below⟩ | ⟨found, present, same⟩ | storage
      · simp only [Indexed, storage]
        exact Nat.lt_of_lt_of_le below around.1
      · have storage : symbol.storage = .captured := by rw [same]
        simp only [Indexed, storage]
        exact (Array.getElem?_eq_some_iff.mp present).1
      · simp only [Indexed, storage]

theorem encode_one {op : OpCode} {n width : Nat} (widths : op.operandWidths = [width]) (large : ¬ n < byteRange width) :
    Instruction.encode ⟨op, [n]⟩ = .error (.operandRange op n width) := by
  have count : [n].length = op.operandWidths.length := by rw [widths]; rfl
  rw [Instruction.encode, if_pos count, widths, Instruction.encodeOperands, if_neg large]
  rfl

theorem load_keeps {symbol : Symbol} (indexed : Indexed symbol c.symbols) :
    Keeps (load symbol) c fun _ d => d.symbols = c.symbols := by
  unfold load
  unfold Indexed at indexed
  cases storage : symbol.storage <;> simp only [storage] at indexed ⊢
  case global =>
    rcases indexed with fits | ⟨equal, full, nested⟩
    · exact emit_keeps ⟨fits, trivial⟩
    · unfold Keeps emit
      rw [equal, encode_one rfl (by decide)]
      exact .inr ⟨.inl rfl, full, nested⟩
  case frame => exact emit_keeps ⟨indexed, trivial⟩
  case native => exact emit_keeps ⟨indexed, trivial⟩
  case itself => exact emit_keeps trivial
  case captured =>
    by_cases fits : symbol.index < 256
    · exact emit_keeps ⟨fits, trivial⟩
    · unfold Keeps emit
      rw [encode_one rfl fits]
      exact .inl ⟨symbol.index, rfl, by omega, indexed⟩

theorem loadAll_keeps {symbols : List Symbol} (each : ∀ symbol ∈ symbols, Indexed symbol c.symbols) :
    Keeps (loadAll symbols) c fun _ d => d.symbols = c.symbols := by
  induction symbols generalizing c with
  | nil => exact (rfl : c.symbols = c.symbols)
  | cons symbol rest ih =>
    refine keeps_then (load_keeps (each symbol List.mem_cons_self)) fun _ d _ same => ?_
    refine keeps_mono (ih (by rw [same]; exact fun s present => each s (List.mem_cons_of_mem _ present))) ?_
    intro _ e _ later
    exact later.trans same

theorem addConstant_keeps (v : Value) (span : Span) :
    Keeps (addConstant v span) c fun index d => index ≤ 65535 ∧ d.symbols = c.symbols := by
  refine keeps_get ?_
  refine keeps_then (checkLimit_keeps _ _ _ _) ?_
  rintro _ d _ ⟨within, rfl⟩
  exact ⟨within, rfl⟩

theorem define_keeps (name : String) (mutability : Mutability) (span : Span) :
    Keeps (define name mutability span) c fun symbol d => symbol.index = c.symbols.innermost.slots ∧
      d.symbols.counts = (c.symbols.innermost.slots + 1) :: c.symbols.enclosing.map Scope.slots ∧
      (symbol.storage = .global ↔ c.symbols.enclosing = []) := by
  unfold Keeps
  split
  · rename_i symbol d run
    obtain ⟨table, defined, rfl⟩ := define_ok.mp run
    exact SymbolTable.define_counts defined
  · trivial
  · rename_i d e run
    rw [define] at run
    split at run <;> cases run

theorem resolve_keeps (name : String) (span : Span) :
    Keeps (resolve name span) c fun _ d => d.symbols.counts = c.symbols.counts := by
  unfold Keeps
  split
  · rename_i symbol d run
    obtain ⟨table, found, rfl⟩ := resolve_ok.mp run
    exact SymbolTable.resolve_counts found
  · trivial
  · rename_i d e run
    rw [resolve] at run
    split at run <;> cases run

theorem store_keeps (symbol : Symbol) (span : Span) :
    Keeps (store symbol span) c fun _ d => d.symbols = c.symbols ∧
      (symbol.storage = .global → symbol.index ≤ 65535) ∧ (symbol.storage ≠ .global → symbol.index ≤ 255) := by
  unfold store
  by_cases global : symbol.storage = .global
  · rw [if_pos global]
    refine keeps_then (checkLimit_keeps _ _ _ _) ?_
    rintro _ d _ ⟨within, rfl⟩
    refine keeps_mono (emit_keeps ⟨Nat.lt_succ_of_le within, trivial⟩) fun _ e _ same => ?_
    exact ⟨same, fun _ => within, fun other => absurd global other⟩
  · rw [if_neg global]
    refine keeps_then (checkLimit_keeps _ _ _ _) ?_
    rintro _ d _ ⟨within, rfl⟩
    refine keeps_mono (emit_keeps ⟨Nat.lt_succ_of_le within, trivial⟩) fun _ e _ same => ?_
    exact ⟨same, fun equal => absurd equal global, fun _ => within⟩

end Compiling
end StackScript
