import StackScript.Proofs.Compiler.Functions
import StackScript.Proofs.Scope.Correct

-- A table of names tells what its scopes say: a name is resolved exactly if it is bound, and to its nearest binding. What a
-- function has captured is bound around it as long as it is open.
namespace StackScript

open Scopes (nearest? outside?)

def Symbol.binding (symbol : Symbol) : Binding :=
  match symbol.storage with
  | .global => .global symbol.mutability
  | .frame => .here symbol.mutability
  | .native => .native
  | .captured => .around
  | .itself => .own

-- The table of an open function: each of its names is bound as it says, and it has all names of the function itself.
structure Scope.Stands (s : Scope) (globals : List (String × Mutability)) (l : Level) (levels : List Level) : Prop where
  found : ∀ (x : String) (symbol : Symbol), s.symbols[x]? = some symbol →
    nearest? globals x (l :: levels) = some symbol.binding
  missing : ∀ x, s.symbols[x]? = none → l.find? x = none

theorem Symbol.binding_here {symbol : Symbol} {mutability : Mutability} :
    symbol.binding = .here mutability ↔ symbol.storage = .frame ∧ symbol.mutability = mutability := by
  cases storage : symbol.storage <;> simp [binding, storage]

theorem Symbol.binding_global {symbol : Symbol} {mutability : Mutability} :
    symbol.binding = .global mutability ↔ symbol.storage = .global ∧ symbol.mutability = mutability := by
  cases storage : symbol.storage <;> simp [binding, storage]

theorem Binding.inward_here {b : Binding} {mutability : Mutability} : b.inward ≠ .here mutability := by
  cases b <;> simp [inward]

theorem Level.find?_here {l : Level} {x : String} {mutability : Mutability} :
    l.find? x = some (.here mutability) ↔ l.declared.lookup x = some mutability := by
  rw [Level.find?]
  cases l.declared.lookup x with
  | some _ => simp
  | none =>
    simp only [reduceCtorEq, iff_false]
    split <;> simp

theorem Scopes.nearest?_here {globals : List (String × Mutability)} {l : Level} {levels : List Level} {x : String}
    {mutability : Mutability} :
    nearest? globals x (l :: levels) = some (.here mutability) ↔ l.declared.lookup x = some mutability := by
  rw [nearest?, ← Level.find?_here]
  cases l.find? x with
  | some _ => simp
  | none => simp [Binding.inward_here]

theorem Scopes.outside?_global {globals : List (String × Mutability)} {x : String} {mutability : Mutability} :
    outside? globals x = some (.global mutability) ↔ globals.lookup x = some mutability := by
  rw [outside?]
  cases globals.lookup x with
  | some _ => simp
  | none =>
    simp only [reduceCtorEq, iff_false]
    split <;> simp

theorem Level.find?_declare (l : Level) (x y : String) (mutability : Mutability) :
    Level.find? ⟨(x, mutability) :: l.declared, l.own⟩ y = if x = y then some (.here mutability) else l.find? y := by
  rw [Level.find?, List.lookup_cons]
  by_cases same : x = y
  · simp [same]
  · simp only [beq_eq_false_iff_ne.mpr (Ne.symm same), if_neg same]
    rfl

theorem Scopes.outside?_declare (globals : List (String × Mutability)) (x y : String) (mutability : Mutability) :
    outside? ((x, mutability) :: globals) y = if x = y then some (.global mutability) else outside? globals y := by
  by_cases same : x = y
  · simp [outside?, same]
  · rw [outside?, List.lookup_cons, beq_eq_false_iff_ne.mpr (Ne.symm same), if_neg same]
    rfl

theorem Scopes.mem_names {declared : List (String × Mutability)} {x : String} :
    x ∈ declared.map Prod.fst ↔ ∃ mutability, declared.lookup x = some mutability := by
  rw [← Option.isSome_iff_exists, List.lookup_isSome_iff, List.mem_map]
  refine exists_congr fun p => and_congr_right fun _ => ?_
  rw [beq_iff_eq]
  exact eq_comm

theorem Scope.declares_iff_storage {s : Scope} {x : String} : s.declares x = true ↔
    ∃ symbol, s.symbols[x]? = some symbol ∧ (symbol.storage = .global ∨ symbol.storage = .frame) := by
  rw [declares]
  cases s.symbols[x]? <;> simp

section
variable {s around : Scope} {globals : List (String × Mutability)} {l : Level} {levels : List Level} {x : String}

theorem Scope.Outermost.declares_iff (outermost : s.Outermost)
    (stands : (s.symbols[x]?).map Symbol.binding = outside? globals x) :
    s.declares x = true ↔ ∃ mutability, globals.lookup x = some mutability := by
  rw [declares_iff_storage]
  constructor
  · rintro ⟨symbol, present, declared⟩
    rw [present, Option.map_some] at stands
    rcases outermost.outside present with storage | storage
    · rw [Symbol.binding_global.mpr ⟨storage, rfl⟩] at stands
      exact ⟨symbol.mutability, Scopes.outside?_global.mp stands.symm⟩
    · simp [storage] at declared
  · rintro ⟨mutability, known⟩
    rw [Scopes.outside?_global.mpr known] at stands
    obtain ⟨symbol, present, binding⟩ := Option.map_eq_some_iff.mp stands
    exact ⟨symbol, present, .inl (Symbol.binding_global.mp binding).1⟩

theorem Scope.Stands.declares_iff (stands : s.Stands globals l levels) (inside : s.Inside around) :
    s.declares x = true ↔ ∃ mutability, l.declared.lookup x = some mutability := by
  rw [declares_iff_storage]
  constructor
  · rintro ⟨symbol, present, declared⟩
    have storage := declared.resolve_left (inside.not_outside present).1
    have bound := stands.found x symbol present
    rw [Symbol.binding_here.mpr ⟨storage, rfl⟩] at bound
    exact ⟨symbol.mutability, Scopes.nearest?_here.mp bound⟩
  · rintro ⟨mutability, known⟩
    cases present : s.symbols[x]? with
    | none =>
      have free := stands.missing x present
      rw [Level.find?_here.mpr known] at free
      cases free
    | some symbol =>
      have bound := stands.found x symbol present
      rw [Scopes.nearest?_here.mpr known] at bound
      exact ⟨symbol, rfl, .inr (Symbol.binding_here.mp (Option.some.inj bound).symm).1⟩

theorem Scope.Stands.declare (stands : s.Stands globals l levels) (slot : Nat) (mutability : Mutability) :
    ({ s.bind ⟨x, slot, mutability, .frame⟩ with slots := slot + 1 } : Scope).Stands globals
      { l with declared := (x, mutability) :: l.declared } levels := by
  constructor
  · intro y symbol found
    simp only [bind_symbols] at found
    rw [nearest?, Level.find?_declare]
    split at found
    · rename_i same
      cases found
      rw [if_pos same]
      rfl
    · rename_i different
      rw [if_neg different]
      exact stands.found y symbol found
  · intro y absent
    simp only [bind_symbols] at absent
    rw [Level.find?_declare]
    split at absent
    · cases absent
    · rename_i different
      rw [if_neg different]
      exact stands.missing y absent

end

namespace SymbolTable

def StandsIn (globals : List (String × Mutability)) : Scope → List Scope → List Level → Prop
  | s, [], [] => ∀ x, (s.symbols[x]?).map Symbol.binding = outside? globals x
  | s, around :: rest, l :: levels => s.Stands globals l levels ∧ StandsIn globals around rest levels
  | _, _, _ => False

structure Stands (t : SymbolTable) (s : Scopes) : Prop where
  valid : t.Valid
  names : StandsIn s.globals t.innermost t.enclosing s.functions

variable {globals : List (String × Mutability)} {levels : List Level} {x : String}

theorem capture_stands {s : Scope} {l : Level} {outer : Symbol} (stands : s.Stands globals l levels)
    (bound : nearest? globals outer.name (l :: levels) = some .around) : (s.capture outer).2.Stands globals l levels := by
  constructor
  · intro y symbol present
    simp only [Scope.capture, Scope.bind_symbols] at present
    split at present
    · rename_i same
      cases present
      rw [← same]
      exact bound
    · exact stands.found y symbol present
  · intro y absent
    simp only [Scope.capture, Scope.bind_symbols] at absent
    split at absent
    · cases absent
    · exact stands.missing y absent

-- By induction on the scopes, from the innermost to the outermost.
theorem resolveIn_stands {s : Scope} {rest : List Scope} (valid : ValidIn s rest) (stands : StandsIn globals s rest levels) :
    match resolveIn x s rest with
    | some (symbol, t, others) => nearest? globals x levels = some symbol.binding ∧ StandsIn globals t others levels
    | none => nearest? globals x levels = none := by
  induction rest generalizing s levels with
  | nil =>
    cases levels with
    | cons l levels => exact stands.elim
    | nil =>
      have outer := stands x
      rw [resolveIn]
      cases here : s.symbols[x]? with
      | none =>
        rw [here] at outer
        exact outer.symm
      | some symbol =>
        rw [here] at outer
        exact ⟨outer.symm, stands⟩
  | cons around rest ih =>
    cases levels with
    | nil => exact stands.elim
    | cons l levels =>
      obtain ⟨inner, further⟩ := stands
      rw [resolveIn]
      cases here : s.symbols[x]? with
      | some symbol => exact ⟨inner.found x symbol here, inner, further⟩
      | none =>
        have beyond : nearest? globals x (l :: levels) = (nearest? globals x levels).map Binding.inward := by
          rw [nearest?, inner.missing x here, Option.none_or]
        have result := ih valid.2 further
        cases deeper : resolveIn x around rest with
        | none =>
          rw [deeper] at result
          simp only
          rw [beyond, result]
          rfl
        | some found =>
          obtain ⟨outer, later, others⟩ := found
          rw [deeper] at result
          obtain ⟨bound, stands⟩ := result
          rw [bound, Option.map_some] at beyond
          have named := (resolveIn_resolved valid.2 deeper).named
          have captured (inward : outer.binding.inward = .around) :
              nearest? globals x (l :: levels) = some (s.capture outer).1.binding ∧
                StandsIn globals (s.capture outer).2 (later :: others) (l :: levels) := by
            rw [inward] at beyond
            exact ⟨beyond, capture_stands inner (named.symm ▸ beyond), stands⟩
          cases storage : outer.storage with
          | global =>
            simp only [Symbol.binding, storage, Binding.inward] at beyond ⊢
            exact ⟨beyond, inner, stands⟩
          | native =>
            simp only [Symbol.binding, storage, Binding.inward] at beyond ⊢
            exact ⟨beyond, inner, stands⟩
          | _ =>
            simp only [storage]
            exact captured (by simp only [Symbol.binding, storage, Binding.inward])

-- A name is found exactly if it is bound, as what it is bound to.
theorem resolve_stands {t : SymbolTable} {s : Scopes} (stands : t.Stands s) (x : String) :
    match t.resolve x with
    | .ok (symbol, u) => s.find? x = some symbol.binding ∧ u.Stands s
    | .error _ => s.find? x = none := by
  have result := resolveIn_stands (x := x) stands.valid stands.names
  rw [resolve]
  cases found : resolveIn x t.innermost t.enclosing with
  | none =>
    rw [found] at result
    exact result
  | some triple =>
    obtain ⟨symbol, inner, others⟩ := triple
    rw [found] at result
    exact ⟨result.1, (resolveIn_resolved stands.valid found).valid, result.2⟩

theorem declares_stands {t : SymbolTable} {s : Scopes} (stands : t.Stands s) (x : String) :
    t.innermost.declares x = true ↔ x ∈ s.declared.map Prod.fst := by
  obtain ⟨inner, rest⟩ := t
  obtain ⟨functions, globals⟩ := s
  obtain ⟨valid, names⟩ := stands
  rw [Scopes.mem_names]
  cases rest with
  | nil =>
    cases functions with
    | nil => exact Scope.Outermost.declares_iff valid (names x)
    | cons l levels => exact names.elim
  | cons around rest =>
    cases functions with
    | nil => exact names.elim
    | cons l levels => exact names.1.declares_iff valid.1

theorem define_stands {t : SymbolTable} {s : Scopes} (stands : t.Stands s) (x : String) (mutability : Mutability) :
    match t.define x mutability with
    | .ok (_, u) => x ∉ s.declared.map Prod.fst ∧ u.Stands (s.declare x mutability)
    | .error _ => x ∈ s.declared.map Prod.fst := by
  cases defined : t.define x mutability with
  | error e =>
    rw [define] at defined
    split at defined
    · rename_i taken
      exact (declares_stands stands x).mp taken
    · cases defined
  | ok pair =>
    obtain ⟨symbol, u⟩ := pair
    have valid := define_valid stands.valid defined
    obtain ⟨fresh, rfl, rfl⟩ := define_ok defined
    refine ⟨fun taken => ?_, valid, ?_⟩
    · rw [(declares_stands stands x).mpr taken] at fresh
      cases fresh
    obtain ⟨inner, rest⟩ := t
    obtain ⟨functions, globals⟩ := s
    obtain ⟨-, names⟩ := stands
    cases rest with
    | nil =>
      cases functions with
      | cons l levels => exact names.elim
      | nil =>
        intro y
        simp only [Scope.bind_symbols, Scopes.declare, Scopes.outside?_declare]
        split
        · rfl
        · exact names y
    | cons around rest =>
      cases functions with
      | nil => exact names.elim
      | cons l levels =>
        obtain ⟨inside, further⟩ := names
        exact ⟨inside.declare _ mutability, further⟩

theorem enterAs_stands {t : SymbolTable} {s : Scopes} (own : Option (String × Mutability)) (stands : t.Stands s) :
    (t.enterAs own).Stands (s.after (.enter (own.map Prod.fst))) := by
  refine ⟨Compiling.enterAs_valid own stands.valid, ?_⟩
  cases own with
  | none =>
    refine ⟨⟨fun x symbol found => ?_, fun x _ => rfl⟩, stands.names⟩
    simp [enterAs, enter] at found
  | some pair =>
    refine ⟨⟨fun x symbol found => ?_, fun x absent => ?_⟩, stands.names⟩
    · simp only [enterAs, defineItself, enter, Scope.bind_symbols, Scope.empty_symbols] at found
      split at found
      · rename_i same
        cases found
        simp [nearest?, Level.find?, same, Symbol.binding]
      · cases found
    · simp only [enterAs, defineItself, enter, Scope.bind_symbols, Scope.empty_symbols] at absent
      split at absent
      · cases absent
      · rename_i different
        simp [Level.find?, different]

theorem leave_stands {t u : SymbolTable} {s : Scopes} {scope : Scope} (stands : t.Stands s)
    (left : t.leave? = some (scope, u)) : u.Stands (s.after .leave) := by
  obtain ⟨inner, rest⟩ := t
  obtain ⟨functions, globals⟩ := s
  obtain ⟨valid, names⟩ := stands
  cases rest with
  | nil => cases left
  | cons around rest =>
    cases left
    cases functions with
    | nil => exact names.elim
    | cons l levels => exact ⟨valid.2, names.2⟩

theorem Stands.nested {t : SymbolTable} {s : Scopes} (stands : t.Stands s) : t.isGlobal = s.functions.isEmpty := by
  obtain ⟨inner, rest⟩ := t
  obtain ⟨functions, globals⟩ := s
  obtain ⟨-, names⟩ := stands
  cases rest <;> cases functions <;> first | rfl | exact names.elim

end SymbolTable
end StackScript
