import StackScript.Proofs.Compiler.WellFormed
import StackScript.Proofs.Machine.Slots

-- Code gives the slot of a fixed name a value where the name is declared, and nowhere else. The names themselves only
-- grow in number: what is declared keeps its slot to itself.
namespace StackScript

-- The slot of a name that is not native, captured or the function's own.
def Symbol.slot? (symbol : Symbol) : Option Slot :=
  match symbol.storage with
  | .global => some (.global symbol.index)
  | .frame => some (.frame symbol.index)
  | _ => none

theorem Symbol.setting_writes {symbol : Symbol} (kept : symbol.storage = .global ∨ symbol.storage = .frame) :
    symbol.setting.writes? = symbol.slot? ∧ symbol.setting.sets? = symbol.slot? := by
  rcases kept with storage | storage <;> simp [setting, slot?, Instruction.writes?, Instruction.sets?, storage]

theorem Symbol.assigning_writes {symbol : Symbol} {i : Instruction} (assigning : symbol.assigning? = some i) :
    i.writes? = symbol.slot? ∧ symbol.mutability = .assignable := by
  cases mutability : symbol.mutability <;> cases storage : symbol.storage <;>
    simp [Symbol.assigning?, mutability, storage] at assigning
  all_goals
    cases assigning
    simp [Instruction.writes?, slot?, storage]

theorem Symbol.slot_global {symbol : Symbol} {n : Nat} :
    symbol.slot? = some (.global n) ↔ symbol.storage = .global ∧ symbol.index = n := by
  cases storage : symbol.storage <;> simp [slot?, storage]

theorem Symbol.slot_frame {symbol : Symbol} {n : Nat} :
    symbol.slot? = some (.frame n) ↔ symbol.storage = .frame ∧ symbol.index = n := by
  cases storage : symbol.storage <;> simp [slot?, storage]

theorem Symbol.slot_kept {symbol : Symbol} {s : Slot} (slot : symbol.slot? = some s) :
    symbol.storage = .global ∨ symbol.storage = .frame := by
  cases s with
  | global n => exact .inl (slot_global.mp slot).1
  | frame n => exact .inr (slot_frame.mp slot).1

namespace Scope

def Has (scope : Scope) (s : Slot) : Prop :=
  ∃ symbol : Symbol, scope.symbols[symbol.name]? = some symbol ∧ symbol.slot? = some s

open Classical in
noncomputable def holders (scope : Scope) (s : Slot) : Nat := if scope.Has s then 1 else 0

variable {scope later : Scope} {s : Slot}

theorem holders_le_one (scope : Scope) (s : Slot) : scope.holders s ≤ 1 := by
  unfold holders
  split <;> decide

theorem holders_of_has (has : scope.Has s) : scope.holders s = 1 := if_pos has

theorem holders_of_not (lacks : ¬ scope.Has s) : scope.holders s = 0 := if_neg lacks

theorem Has.grows (has : scope.Has s) (grows : scope.Grows later) : later.Has s := by
  obtain ⟨symbol, found, slot⟩ := has
  exact ⟨symbol, grows.declared _ _ found (Symbol.slot_kept slot), slot⟩

theorem Grows.holders (grows : scope.Grows later) (s : Slot) : scope.holders s ≤ later.holders s := by
  by_cases has : scope.Has s
  · exact Nat.le_of_eq (by rw [holders_of_has has, holders_of_has (has.grows grows)])
  · rw [holders_of_not has]
    exact Nat.zero_le _

theorem Grows.atMost {code : Code} {count a : Nat} (grows : scope.Grows later)
    (most : code.AtMost s (count - later.holders s) a) : code.AtMost s (count - scope.holders s) a :=
  most.mono (Nat.sub_le_sub_left (grows.holders s) count)

end Scope

namespace SymbolTable

-- A name that is found without going through other functions.
def Knows (t : SymbolTable) (symbol : Symbol) : Prop := Kept symbol t.innermost t.enclosing

-- The name to which a slot belongs, if there is one, may not be assigned.
def Fixed (t : SymbolTable) (s : Slot) : Prop :=
  ∀ symbol, t.Knows symbol → symbol.slot? = some s → symbol.mutability = .fixed

variable {t u : SymbolTable} {symbol other : Symbol} {s : Slot} {x : String} {mutability : Mutability}

theorem Knows.here (found : t.innermost.symbols[symbol.name]? = some symbol) : t.Knows symbol := by
  cases shape : t.enclosing with
  | nil =>
    apply Or.inl
    rw [shape]
    exact found
  | cons around rest => exact .inr ⟨by simp [shape], found⟩

theorem Knows.grows (knows : t.Knows symbol) (slot : symbol.slot? = some s) (grows : t.Grows u) : u.Knows symbol := by
  have kept := Symbol.slot_kept slot
  rcases knows with outside | ⟨nested, inside⟩
  · exact .inl ((outermostIn_grows grows.innermost grows.enclosing).declared _ _ outside kept)
  · exact .here (grows.innermost.declared _ _ inside kept)

theorem Fixed.before (fixed : u.Fixed s) (grows : t.Grows u) : t.Fixed s :=
  fun symbol knows slot => fixed symbol (knows.grows slot grows) slot

theorem Knows.unique (valid : t.Valid) (one : t.Knows symbol) (two : t.Knows other) (slot : symbol.slot? = some s)
    (same : other.slot? = some s) : symbol = other := by
  cases s with
  | global n =>
    obtain ⟨first, index⟩ := Symbol.slot_global.mp slot
    obtain ⟨second, rfl⟩ := Symbol.slot_global.mp same
    have here := one.outside (ValidIn.fits valid) (.inl first)
    have there := two.outside (ValidIn.fits valid) (.inl second)
    exact (ValidIn.outermost valid).apart _ _ _ _ here there (first.trans second.symm) (.inl first) index
  | frame n =>
    obtain ⟨first, index⟩ := Symbol.slot_frame.mp slot
    obtain ⟨second, rfl⟩ := Symbol.slot_frame.mp same
    obtain ⟨nested, here⟩ := one.inside (ValidIn.fits valid) (by simp [first])
    obtain ⟨-, there⟩ := two.inside (ValidIn.fits valid) (by simp [second])
    cases shape : t.enclosing with
    | nil => exact absurd shape nested
    | cons around rest =>
      have valid : ValidIn t.innermost (around :: rest) := shape ▸ valid
      exact valid.1.apart _ _ _ _ here there (first.trans second.symm) (.inr first) index

theorem Fixed.of_known (valid : t.Valid) (knows : t.Knows symbol) (slot : symbol.slot? = some s)
    (fixed : symbol.mutability = .fixed) : t.Fixed s := by
  intro other known same
  rw [← knows.unique valid known slot same]
  exact fixed

theorem index_below (valid : t.Valid) (found : t.innermost.symbols[symbol.name]? = some symbol)
    (slot : symbol.slot? = some s) : symbol.index < t.innermost.slots := by
  have kept := Symbol.slot_kept slot
  obtain ⟨scope, rest⟩ := t
  cases rest with
  | nil =>
    have outermost : scope.Outermost := valid
    rcases outermost.stored _ _ found with ⟨-, below⟩ | ⟨native, -⟩
    · exact below
    · simp [native] at kept
  | cons around rest =>
    rcases valid.1.stored _ _ found with ⟨-, below⟩ | ⟨_, -, captured⟩ | itself
    · exact below
    · rw [captured] at kept
      simp at kept
    · simp [itself] at kept

theorem define_here (defined : t.define x mutability = .ok (symbol, u)) :
    u.innermost.symbols[symbol.name]? = some symbol := by
  obtain ⟨-, rfl, rfl⟩ := define_ok defined
  simp

-- What declaring a name adds to the holders of a slot: a name gets a slot that no name has had.
theorem define_holders (valid : t.Valid) (defined : t.define x mutability = .ok (symbol, u)) (s : Slot) :
    u.innermost.holders s = t.innermost.holders s + if symbol.slot? = some s then 1 else 0 := by
  have grows := (define_grows defined).innermost
  have here := define_here defined
  by_cases slot : symbol.slot? = some s
  · rw [if_pos slot, Scope.holders_of_has ⟨symbol, here, slot⟩, Scope.holders_of_not]
    rintro ⟨old, found, same⟩
    have below := index_below valid found same
    have equal := (Knows.here (grows.declared _ _ found (Symbol.slot_kept same))).unique (define_valid valid defined)
      (.here here) same slot
    obtain ⟨-, rfl, -⟩ := define_ok defined
    rw [equal] at below
    exact Nat.lt_irrefl _ below
  · rw [if_neg slot, Nat.add_zero]
    by_cases has : t.innermost.Has s
    · rw [Scope.holders_of_has has, Scope.holders_of_has (has.grows grows)]
    · rw [Scope.holders_of_not has, Scope.holders_of_not]
      rintro ⟨other, found, same⟩
      obtain ⟨-, rfl, rfl⟩ := define_ok defined
      simp only [Scope.bind_symbols] at found
      split at found
      · rw [Option.some.inj found] at slot
        exact slot same
      · exact has ⟨other, found, same⟩

end SymbolTable

theorem Instruction.effect_quiet {i : Instruction} {effect : Nat × Nat} (known : i.effect? = some effect) :
    i.writes? = none ∧ i.opcode ≠ .jump ∧ i.opcode ≠ .jumpUnless := by
  unfold effect? at known
  split at known <;> cases known <;> exact ⟨rfl, by simp, by simp⟩

theorem Symbol.reading_quiet (symbol : Symbol) : symbol.reading.writes? = none ∧ symbol.reading.opcode ≠ .jump ∧
    symbol.reading.opcode ≠ .jumpUnless := by
  cases storage : symbol.storage <;> simp [reading, storage, Instruction.writes?]

theorem Symbol.setting_straight (symbol : Symbol) : symbol.setting.opcode ≠ .jump ∧ symbol.setting.opcode ≠ .jumpUnless := by
  unfold setting
  split <;> simp

theorem Symbol.assigning_straight {symbol : Symbol} {i : Instruction} (assigning : symbol.assigning? = some i) :
    i.opcode ≠ .jump ∧ i.opcode ≠ .jumpUnless := by
  rcases writing_shape (assigning_kept assigning) (.inr assigning) with ⟨-, rfl | rfl⟩ | ⟨-, rfl | rfl⟩ <;> simp

theorem Layout.making_quiet (index captured : Nat) : (making index captured).writes? = none ∧
    (making index captured).opcode ≠ .jump ∧ (making index captured).opcode ≠ .jumpUnless := by
  unfold making
  split <;> simp [Instruction.writes?]

-- From the end of a piece of code back to its beginning: where the holder of a slot is declared, the slot gets a value.
-- Anything that is assigned is some other name.
theorem Balanced.atMost {k : Finished} {p q : Point} {a b count : Nat} {s : Slot} (balanced : Balanced k p a q b)
    (sound : k.Sound) (valid : p.symbols.Valid) (fixed : q.symbols.Fixed s) (enough : q.symbols.innermost.holders s ≤ count)
    (rest : k.code.AtMost s (count - q.symbols.innermost.holders s) q.position) :
    k.code.AtMost s (count - p.symbols.innermost.holders s) p.position := by
  induction balanced with
  | nothing => exact rest
  | @seq k p m q a b c left right first second =>
    have segment := left.segment sound valid
    have further := (right.segment sound segment.valid).grows
    have middle := second sound segment.valid fixed enough rest
    exact first sound valid (fixed.before further) (Nat.le_trans (further.innermost.holders s) enough) middle
  | plain effect lies =>
    obtain ⟨item, rfl⟩ := lies
    obtain ⟨quiet, jump, test⟩ := Instruction.effect_quiet effect
    exact .pass item jump test (by simp [quiet]) rest
  | constant literal lies =>
    obtain ⟨-, item, rfl⟩ := lies
    exact .pass item (by simp) (by simp) (by simp [Instruction.writes?]) rest
  | resolve found =>
    have grows := (SymbolTable.resolve_resolved valid found).table
    exact grows.innermost.atMost rest
  | read lies =>
    obtain ⟨-, item, rfl⟩ := lies
    obtain ⟨quiet, jump, test⟩ := Symbol.reading_quiet _
    exact .pass item jump test (by simp [quiet]) rest
  | assign found assigning within lies =>
    obtain ⟨item, rfl⟩ := lies
    have resolved := SymbolTable.resolve_resolved valid found
    obtain ⟨writes, assignable⟩ := Symbol.assigning_writes assigning
    obtain ⟨jump, test⟩ := Symbol.assigning_straight assigning
    apply resolved.grows.atMost
    refine .pass item jump test ?_ rest
    intro slot
    have never := fixed _ resolved.kept (writes.symm.trans slot)
    cases never.symm.trans assignable
  | bind defined lies =>
    obtain ⟨-, item, rfl⟩ := lies
    obtain ⟨jump, test⟩ := Symbol.setting_straight _
    obtain ⟨writes, sets⟩ := Symbol.setting_writes (SymbolTable.define_kept defined)
    have here := Code.AtMost.straight item jump test (fun written => by rwa [sets, ← writes]) rest
    rw [writes] at here
    have more := SymbolTable.define_holders valid defined s
    simp only at here enough
    exact here.mono (by omega)
  | @bindEarly k p m q x symbol table h defined value lies inner =>
    obtain ⟨-, item, rfl⟩ := lies
    obtain ⟨jump, test⟩ := Symbol.setting_straight symbol
    have grown := SymbolTable.define_valid valid defined
    have grows := (value.segment sound grown).grows
    have other : symbol.slot? ≠ some s := by
      intro slot
      have knows := (SymbolTable.Knows.here (SymbolTable.define_here defined)).grows slot grows
      have never := fixed symbol knows slot
      obtain ⟨-, rfl, -⟩ := SymbolTable.define_ok defined
      cases never
    have stored : k.code.AtMost s (count - m.symbols.innermost.holders s) m.position := by
      refine .pass item jump test ?_ rest
      rwa [(Symbol.setting_writes (SymbolTable.define_kept defined)).1]
    have same := SymbolTable.define_holders valid defined s
    rw [if_neg other, Nat.add_zero] at same
    rw [← same]
    exact inner sound grown fixed enough stored
  | @choice k p a b c d q h first skip second leap third one two three =>
    have left := first.segment sound valid
    obtain ⟨skipItem, rfl⟩ := skip
    have middle := second.segment sound left.valid
    obtain ⟨leapItem, rfl⟩ := leap
    have grows₃ := (third.segment sound middle.valid).grows
    have fixed₃ := fixed.before grows₃
    have enough₃ := Nat.le_trans (grows₃.innermost.holders s) enough
    have last := three sound middle.valid fixed enough rest
    have leapt : k.code.AtMost s (count - c.symbols.innermost.holders s) c.position :=
      .jump leapItem (grows₃.innermost.atMost rest)
    have taken := two sound left.valid fixed₃ enough₃ leapt
    have tested := middle.grows.innermost.atMost last
    exact one sound valid (fixed₃.before middle.grows) (Nat.le_trans (middle.grows.innermost.holders s) enough₃)
      (.jumpUnless skipItem tested taken)
  | @function k p q m e last own parameters code scope first table i height h declares inner ends ret size left few slots
      captures compiled made loading same making body reads =>
    have inside := inner.segment (fun plain => by cases plain) (declares.entered valid)
    obtain ⟨-, rfl⟩ := ret
    obtain ⟨-, -, around, outside⟩ := declares.leave_shape valid inside.grows inside.valid left
    obtain ⟨item, rfl⟩ := making
    obtain ⟨quiet, jump, test⟩ := Layout.making_quiet e.constants scope.captures.size
    have loaded := reads sound around fixed enough (.pass item jump test (by simp [quiet]) rest)
    exact outside.innermost.atMost loaded

end StackScript
