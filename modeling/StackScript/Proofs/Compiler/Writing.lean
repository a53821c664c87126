import StackScript.Proofs.Code.Encoding
import StackScript.Proofs.Compiler.Layout
import StackScript.Proofs.Scope.Resolve

-- What the steps of a compiler write. A step that succeeds only adds to what is there, and what it adds lies in every
-- finished code as its layout says.
namespace StackScript

theorem prefix_some {α : Type} {xs ys : List α} (initial : xs <+: ys) {i : Nat} {x : α} (present : xs[i]? = some x) :
    ys[i]? = some x := by
  obtain ⟨rest, rfl⟩ := initial
  obtain ⟨below, -⟩ := List.getElem?_eq_some_iff.mp present
  rw [List.getElem?_append_left below, present]

-- The remembered last instruction lies inside the code.
def Fragment.Tidy (f : Fragment) : Prop := ∀ last, f.last = some last → last.position < f.code.size

namespace Compiler

def point (c : Compiler) : Point := ⟨c.symbols, c.constants.size, c.fragment.code.size⟩

structure Ready (c : Compiler) : Prop where
  symbols : c.symbols.Valid
  fragment : c.fragment.Tidy

structure Grows (c d : Compiler) : Prop where
  constants : c.constants.toList <+: d.constants.toList
  symbols : c.symbols.Grows d.symbols
  enclosing : d.enclosing = c.enclosing

structure Extends (c d : Compiler) : Prop extends c.Grows d where
  size : c.fragment.code.size ≤ d.fragment.code.size
  code : d.fragment.code.Same c.fragment.code 0 c.fragment.code.size

theorem Grows.refl (c : Compiler) : c.Grows c := ⟨List.prefix_rfl, .refl _, rfl⟩

theorem Grows.trans {c d e : Compiler} (left : c.Grows d) (right : d.Grows e) : c.Grows e :=
  ⟨left.constants.trans right.constants, left.symbols.trans right.symbols, right.enclosing.trans left.enclosing⟩

theorem Grows.each {c d : Compiler} (grows : c.Grows d) (holds : Value → Prop) (old : ∀ v ∈ c.constants, holds v)
    (later : ∀ n v, c.constants.size ≤ n → n < d.constants.size → d.constants[n]? = some v → holds v) :
    ∀ v ∈ d.constants, holds v := by
  intro v present
  obtain ⟨n, below, equal⟩ := Array.getElem_of_mem present
  by_cases early : n < c.constants.size
  · have same := grows.constants.getElem (i := n) early
    simp only [Array.getElem_toList] at same
    rw [← equal, ← same]
    exact old _ (Array.getElem_mem early)
  · exact later n v (Nat.le_of_not_lt early) below (by rw [Array.getElem?_eq_getElem below, equal])

theorem Extends.refl (c : Compiler) : c.Extends c := ⟨.refl c, Nat.le_refl _, .refl _ _ _⟩

theorem Extends.trans {c d e : Compiler} (left : c.Extends d) (right : d.Extends e) : c.Extends e :=
  ⟨left.toGrows.trans right.toGrows, Nat.le_trans left.size right.size,
    (right.code.within (Nat.le_refl _) left.size).trans left.code⟩

theorem extends_symbols (c : Compiler) {table : SymbolTable} (grows : c.symbols.Grows table) :
    c.Extends { c with symbols := table } :=
  ⟨⟨List.prefix_rfl, grows, rfl⟩, Nat.le_refl _, .refl _ _ _⟩

end Compiler

namespace Finished

-- A finished code to which belongs everything a compiler knows of.
structure Knows (k : Finished) (c : Compiler) : Prop where
  constants : c.constants.toList <+: k.constants.toList
  nested : k.nested = !c.symbols.isGlobal
  locals : k.nested = true → c.symbols.innermost.slots ≤ k.locals
  captures : c.symbols.innermost.captures.toList <+: k.captures
  globals : c.symbols.globals ≤ k.globals

-- A finished code that also has what a compiler wrote from `start` on.
structure Completes (k : Finished) (c : Compiler) (start : Nat) : Prop extends k.Knows c where
  code : k.code.Same c.fragment.code start c.fragment.code.size

theorem Knows.before {k : Finished} {c d : Compiler} (knows : k.Knows d) (grows : c.Grows d) : k.Knows c :=
  ⟨grows.constants.trans knows.constants, by rw [knows.nested, grows.symbols.isGlobal],
    fun nested => Nat.le_trans grows.symbols.innermost.slots (knows.locals nested),
    grows.symbols.innermost.captures.trans knows.captures, Nat.le_trans grows.symbols.globals knows.globals⟩

theorem Completes.before {k : Finished} {c d : Compiler} {start : Nat} (completes : k.Completes d start)
    (later : c.Extends d) : k.Completes c start :=
  ⟨completes.toKnows.before later.toGrows,
    (completes.code.within (Nat.le_refl _) later.size).trans (later.code.within (Nat.zero_le _) (Nat.le_refl _))⟩

theorem Completes.behind {k : Finished} {c : Compiler} {a b : Nat} (completes : k.Completes c a) (later : a ≤ b) :
    k.Completes c b :=
  ⟨completes.toKnows, completes.code.within later (Nat.le_refl _)⟩

theorem Knows.constant {k : Finished} {c : Compiler} {index : Nat} {v : Value} (knows : k.Knows c)
    (present : c.constants[index]? = some v) : k.constants[index]? = some v := by
  rw [← Array.getElem?_toList] at present ⊢
  exact prefix_some knows.constants present

theorem Knows.within {k : Finished} {c : Compiler} (knows : k.Knows c) (valid : c.symbols.Valid) {symbol : Symbol}
    (kept : SymbolTable.Kept symbol c.symbols.innermost c.symbols.enclosing) : symbol.Within k := by
  have globals := knows.globals
  rcases kept with outside | ⟨nested, inside⟩
  · rcases (SymbolTable.ValidIn.outermost valid).stored _ symbol outside with ⟨storage, below⟩ | ⟨storage, below⟩
    · simp only [Symbol.Within, storage]
      exact Nat.lt_of_lt_of_le below globals
    · simp only [Symbol.Within, storage]
      exact below
  · cases shape : c.symbols.enclosing with
    | nil => exact absurd shape nested
    | cons around rest =>
      have function : k.nested = true := by
        rw [knows.nested, SymbolTable.isGlobal, shape]
        rfl
      have valid : SymbolTable.ValidIn c.symbols.innermost (around :: rest) := by
        rw [← shape]
        exact valid
      rcases valid.1.stored _ symbol inside with ⟨storage, below⟩ | ⟨outer, present, same⟩ | storage
      · simp only [Symbol.Within, storage]
        exact ⟨Nat.lt_of_lt_of_le below (knows.locals function), function⟩
      · have storage : symbol.storage = .captured := by rw [same]
        have name : symbol.name = outer.name := by rw [same]
        rw [← Array.getElem?_toList] at present
        simp only [Symbol.Within, storage]
        rw [prefix_some knows.captures present, name]
        rfl
      · simp only [Symbol.Within, storage]
        exact function

end Finished

namespace Compiling

theorem bind_ok {α β : Type} {x : Compiling α} {f : α → Compiling β} {c d : Compiler} {b : β} :
    (x >>= f) c = .ok b d ↔ ∃ a e, x c = .ok a e ∧ f a e = .ok b d := by
  simp only [bind, EStateM.bind]
  cases x c with
  | ok a e =>
    constructor
    · intro next
      exact ⟨a, e, rfl, next⟩
    · rintro ⟨a, e, equal, next⟩
      cases equal
      exact next
  | error r e => simp

theorem get_ok {c d : Compiler} {a : Compiler} : (get : Compiling Compiler) c = .ok a d ↔ a = c ∧ d = c := by
  constructor
  · intro run
    cases run
    exact ⟨rfl, rfl⟩
  · rintro ⟨rfl, rfl⟩
    rfl

theorem modify_ok {f : Compiler → Compiler} {c d : Compiler} {a : PUnit} :
    (modify f : Compiling PUnit) c = .ok a d ↔ d = f c := by
  constructor
  · intro run
    cases run
    rfl
  · rintro rfl
    rfl

theorem pure_ok {α : Type} {a b : α} {c d : Compiler} : (pure a : Compiling α) c = .ok b d ↔ b = a ∧ d = c := by
  constructor
  · intro run
    cases run
    exact ⟨rfl, rfl⟩
  · rintro ⟨rfl, rfl⟩
    rfl

theorem position_ok {c d : Compiler} {n : Nat} : position c = .ok n d ↔ n = c.fragment.code.size ∧ d = c := by
  rw [position, bind_ok]
  simp only [get_ok, pure_ok]
  grind

theorem checkLimit_ok {value limit : Nat} {what : String} {span : Span} {c d : Compiler} {a : Unit} :
    checkLimit value limit what span c = .ok a d ↔ value ≤ limit ∧ d = c := by
  rw [checkLimit]
  split
  · rename_i large
    constructor
    · intro run
      cases run
    · intro within
      omega
  · rename_i within
    rw [pure_ok]
    constructor
    · intro run
      exact ⟨by omega, run.2⟩
    · intro run
      exact ⟨rfl, run.2⟩

theorem emit_ok {op : OpCode} {operands : List Nat} {c d : Compiler} {a : Unit} :
    emit op operands c = .ok a d ↔ ∃ bytes, Instruction.encode ⟨op, operands⟩ = .ok bytes ∧
      d = { c with fragment := c.fragment.append op bytes } := by
  rw [emit]
  cases Instruction.encode ⟨op, operands⟩ with
  | ok bytes =>
    constructor
    · intro run
      cases run
      exact ⟨bytes, rfl, rfl⟩
    · rintro ⟨same, equal, rfl⟩
      cases equal
      rfl
  | error m => simp

theorem define_ok {name : String} {mutability : Mutability} {span : Span} {c d : Compiler} {symbol : Symbol} :
    define name mutability span c = .ok symbol d ↔
      ∃ table, c.symbols.define name mutability = .ok (symbol, table) ∧ d = { c with symbols := table } := by
  rw [define]
  cases c.symbols.define name mutability with
  | ok result =>
    obtain ⟨found, table⟩ := result
    constructor
    · intro run
      cases run
      exact ⟨table, rfl, rfl⟩
    · rintro ⟨same, equal, rfl⟩
      cases equal
      rfl
  | error e => simp

theorem resolve_ok {name : String} {span : Span} {c d : Compiler} {symbol : Symbol} :
    resolve name span c = .ok symbol d ↔
      ∃ table, c.symbols.resolve name = .ok (symbol, table) ∧ d = { c with symbols := table } := by
  rw [resolve]
  cases c.symbols.resolve name with
  | ok result =>
    obtain ⟨found, table⟩ := result
    constructor
    · intro run
      cases run
      exact ⟨table, rfl, rfl⟩
    · rintro ⟨same, equal, rfl⟩
      cases equal
      rfl
  | error e => simp

theorem addConstant_ok {v : Value} {span : Span} {c d : Compiler} {index : Nat} :
    addConstant v span c = .ok index d ↔ c.constants.size ≤ wide ∧ index = c.constants.size ∧
      d = { c with constants := c.constants.push v } := by
  rw [addConstant, bind_ok]
  simp only [get_ok, bind_ok, checkLimit_ok, modify_ok, pure_ok]
  grind

end Compiling
end StackScript
