import StackScript.Proofs.Scope.Valid

-- Declaring and resolving names keep a table valid.
namespace StackScript

theorem Scope.Inside.not_outside {s around : Scope} (inside : s.Inside around) {x : String} {symbol : Symbol}
    (found : s.symbols[x]? = some symbol) : symbol.storage ≠ .global ∧ symbol.storage ≠ .native := by
  rcases inside.stored x symbol found with ⟨storage, -⟩ | ⟨outer, -, symbol⟩ | storage
  · simp [storage]
  · rw [symbol]; simp
  · simp [storage]

theorem Scope.Outside.outside {s : Scope} (outside : s.Outside) {x : String} {symbol : Symbol}
    (found : s.symbols[x]? = some symbol) : symbol.storage = .global ∨ symbol.storage = .native :=
  (outside.stored x symbol found).imp_left And.left

theorem Scope.Outermost.outside {s : Scope} (outermost : s.Outermost) {x : String} {symbol : Symbol}
    (found : s.symbols[x]? = some symbol) : symbol.storage = .global ∨ symbol.storage = .native :=
  (Scope.outermost_iff.mp outermost).1.outside found

theorem Scope.Apart.bind {s : Scope} {symbol : Symbol} (apart : s.Apart)
    (fresh : symbol.storage = .global ∨ symbol.storage = .frame →
      ∀ (x : String) (old : Symbol), s.symbols[x]? = some old → old.storage = symbol.storage → old.index < symbol.index) :
    (s.bind symbol).Apart := by
  intro x y a b one two same kept index
  rw [bind_symbols] at one two
  split at one <;> split at two
  · rw [← Option.some.inj one, ← Option.some.inj two]
  · cases one
    have := fresh kept y b two same.symm
    omega
  · cases two
    have := fresh (same ▸ kept) x a one same
    omega
  · exact apart x y a b one two same kept index

theorem Scope.capture_keeps {s : Scope} {outer : Symbol} (fresh : s.symbols[outer.name]? = none) (x : String) (old : Symbol)
    (present : s.symbols[x]? = some old) : (s.capture outer).2.symbols[x]? = some old := by
  simp only [Scope.capture, Scope.bind_symbols]
  rw [if_neg]
  · exact present
  · rintro rfl
    cases fresh.symm.trans present

namespace Scope.Outside

variable {s : Scope}

theorem empty : Scope.empty.Outside := by
  refine ⟨?_, ?_, rfl, ?_⟩
  · intro x symbol found
    simp at found
  · intro x symbol found
    simp at found
  · intro x y a b found
    simp at found

theorem native (outside : s.Outside) (index : Nat) (name : String) (mutability : Mutability) :
    (s.bind ⟨name, index, mutability, .native⟩).Outside := by
  refine ⟨?_, ?_, outside.captures, outside.apart.bind (by simp)⟩
  · intro x symbol found
    simp only [Scope.bind_symbols] at found
    split at found
    · cases found; assumption
    · exact outside.named x symbol found
  · intro x symbol found
    simp only [Scope.bind_symbols] at found
    split at found
    · cases found
      exact .inr rfl
    · exact outside.stored x symbol found

theorem define (outside : s.Outside) (name : String) (mutability : Mutability) :
    ({ s.bind ⟨name, s.slots, mutability, .global⟩ with slots := s.slots + 1 } : Scope).Outside := by
  refine ⟨?_, ?_, outside.captures, outside.apart.bind ?_⟩
  · intro x symbol found
    simp only [Scope.bind_symbols] at found
    split at found
    · cases found; assumption
    · exact outside.named x symbol found
  · intro x symbol found
    simp only [Scope.bind_symbols] at found
    split at found
    · cases found
      exact .inl ⟨rfl, Nat.lt_succ_self _⟩
    · rcases outside.stored x symbol found with ⟨storage, below⟩ | native
      · exact .inl ⟨storage, Nat.lt_succ_of_lt below⟩
      · exact .inr native
  · intro _ x old found same
    rcases outside.stored x old found with ⟨-, below⟩ | native
    · exact below
    · cases native.symm.trans same

end Scope.Outside

theorem Scope.Natives.bind {s : Scope} {symbol : Symbol} (natives : s.Natives)
    (below : symbol.storage = .native → symbol.index < Builtin.all.length) : (s.bind symbol).Natives := by
  intro x other found native
  rw [Scope.bind_symbols] at found
  split at found
  · cases found
    exact below native
  · exact natives x other found native

namespace Scope.Inside

variable {s around : Scope}

theorem empty (around : Scope) : Scope.empty.Inside around := by
  refine ⟨?_, ?_, ?_, ?_, ?_, ?_⟩
  · intro x symbol found
    simp at found
  · intro x symbol found
    simp at found
  · intro outer present
    simp [Scope.empty] at present
  · intro outer present
    simp [Scope.empty] at present
  · simp [Scope.empty]
  · intro x y a b found
    simp at found

theorem define (inside : s.Inside around) (name : String) (mutability : Mutability) :
    ({ s.bind ⟨name, s.slots, mutability, .frame⟩ with slots := s.slots + 1 } : Scope).Inside around := by
  refine ⟨?_, ?_, inside.taken, ?_, inside.distinct, inside.apart.bind ?_⟩
  · intro x symbol found
    simp only [Scope.bind_symbols] at found
    split at found
    · cases found; assumption
    · exact inside.named x symbol found
  · intro x symbol found
    simp only [Scope.bind_symbols] at found
    split at found
    · cases found
      exact .inl ⟨rfl, Nat.lt_succ_self _⟩
    · rcases inside.stored x symbol found with ⟨storage, below⟩ | others
      · exact .inl ⟨storage, Nat.lt_succ_of_lt below⟩
      · exact .inr others
  · intro outer present
    simp only [Scope.bind_symbols]
    split
    · rfl
    · exact inside.known outer present
  · intro _ x old found same
    rcases inside.stored x old found with ⟨-, below⟩ | ⟨_, -, captured⟩ | itself
    · exact below
    · rw [captured] at same
      cases same
    · cases itself.symm.trans same

theorem itself (inside : s.Inside around) (name : String) (mutability : Mutability) :
    (s.bind ⟨name, 0, mutability, .itself⟩).Inside around := by
  refine ⟨?_, ?_, inside.taken, ?_, inside.distinct, inside.apart.bind (by simp)⟩
  · intro x symbol found
    simp only [Scope.bind_symbols] at found
    split at found
    · cases found; assumption
    · exact inside.named x symbol found
  · intro x symbol found
    simp only [Scope.bind_symbols] at found
    split at found
    · cases found
      exact .inr (.inr rfl)
    · exact inside.stored x symbol found
  · intro outer present
    simp only [Scope.bind_symbols]
    split
    · rfl
    · exact inside.known outer present

end Scope.Inside

namespace SymbolTable

theorem ValidIn.outermost {s : Scope} {rest : List Scope} (valid : ValidIn s rest) : (outermostIn s rest).Outermost := by
  induction rest generalizing s with
  | nil => exact valid
  | cons around rest ih => exact ih valid.2

theorem Fitting.outermost {s : Scope} {rest : List Scope} (fits : Fitting s rest) : (outermostIn s rest).Outside := by
  induction rest generalizing s with
  | nil => exact fits
  | cons around rest ih => exact ih fits.2

theorem Fitting.named {s : Scope} {rest : List Scope} (fits : Fitting s rest) {x : String} {symbol : Symbol}
    (found : s.symbols[x]? = some symbol) : symbol.name = x := by
  cases rest with
  | nil => exact Scope.Outside.named fits x symbol found
  | cons around rest => exact fits.1.named x symbol found

theorem ValidIn.named {s : Scope} {rest : List Scope} (valid : ValidIn s rest) {x : String} {symbol : Symbol}
    (found : s.symbols[x]? = some symbol) : symbol.name = x :=
  valid.fits.named found

-- What a name means is kept outside all functions, or else in the innermost of them.
def Kept (symbol : Symbol) (s : Scope) (rest : List Scope) : Prop :=
  (outermostIn s rest).symbols[symbol.name]? = some symbol ∨ (rest ≠ [] ∧ s.symbols[symbol.name]? = some symbol)

theorem Kept.inside {symbol : Symbol} {s : Scope} {rest : List Scope} (fits : Fitting s rest)
    (kept : Kept symbol s rest) (storage : symbol.storage ≠ .global ∧ symbol.storage ≠ .native) :
    rest ≠ [] ∧ s.symbols[symbol.name]? = some symbol := by
  rcases kept with outside | inside
  · rcases fits.outermost.outside outside with wrong | wrong
    · exact absurd wrong storage.1
    · exact absurd wrong storage.2
  · exact inside

theorem Kept.outside {symbol : Symbol} {s : Scope} {rest : List Scope} (fits : Fitting s rest)
    (kept : Kept symbol s rest) (storage : symbol.storage = .global ∨ symbol.storage = .native) :
    (outermostIn s rest).symbols[symbol.name]? = some symbol := by
  rcases kept with outside | ⟨nested, inside⟩
  · exact outside
  · cases rest with
    | nil => exact absurd rfl nested
    | cons around rest =>
      obtain ⟨global, native⟩ := fits.1.not_outside inside
      rcases storage with wrong | wrong
      · exact absurd wrong global
      · exact absurd wrong native

structure Settled (name : String) (s : Scope) (rest : List Scope) (symbol : Symbol) (t : Scope) (others : List Scope) :
    Prop where
  fits : Fitting t others
  grows : s.Grows t
  around : List.Forall₂ Scope.Grows rest others
  slots : t.slots = s.slots
  outermost : outermostIn t others = outermostIn s rest
  keeps : ∀ (x : String) (old : Symbol), s.symbols[x]? = some old → t.symbols[x]? = some old
  named : symbol.name = name
  kept : Kept symbol t others

structure Resolved (name : String) (s : Scope) (rest : List Scope) (symbol : Symbol) (t : Scope) (others : List Scope) :
    Prop extends Settled name s rest symbol t others where
  valid : ValidIn t others
  globals : (outermostIn t others).slots = (outermostIn s rest).slots

theorem Settled.here {name : String} {s : Scope} {rest : List Scope} {symbol : Symbol} (fits : Fitting s rest)
    (found : s.symbols[name]? = some symbol) : Settled name s rest symbol s rest := by
  have named := fits.named found
  refine ⟨fits, .refl s, forall₂_refl rest, rfl, rfl, fun _ _ old => old, named, ?_⟩
  rw [← named] at found
  cases rest with
  | nil => exact .inl found
  | cons around rest => exact .inr ⟨by simp, found⟩

theorem inside_capture {s around : Scope} {outer : Symbol} (inside : s.Inside around)
    (fresh : s.symbols[outer.name]? = none) (taken : around.symbols[outer.name]? = some outer)
    (storage : outer.storage ≠ .global ∧ outer.storage ≠ .native) : (s.capture outer).2.Inside around := by
  refine ⟨?_, ?_, ?_, ?_, ?_, inside.apart.bind (by simp)⟩
  · intro x symbol found
    simp only [Scope.capture, Scope.bind_symbols] at found
    split at found
    · cases found; assumption
    · exact inside.named x symbol found
  · intro x symbol found
    simp only [Scope.capture, Scope.bind_symbols] at found
    split at found
    · cases found
      exact .inr (.inl ⟨outer, by simp [Scope.capture], rfl⟩)
    · rcases inside.stored x symbol found with frame | ⟨old, present, same⟩ | itself
      · exact .inl frame
      · refine .inr (.inl ⟨old, ?_, same⟩)
        obtain ⟨below, equal⟩ := Array.getElem?_eq_some_iff.mp present
        simp only [Scope.capture, Array.getElem?_push]
        rw [if_neg (by omega)]
        exact present
      · exact .inr (.inr itself)
  · intro old present
    rcases Array.mem_push.mp present with before | rfl
    · exact inside.taken old before
    · exact ⟨taken, storage⟩
  · intro old present
    simp only [Scope.capture, Scope.bind_symbols]
    split
    · rfl
    · rename_i different
      rcases Array.mem_push.mp present with before | rfl
      · exact inside.known old before
      · exact absurd rfl different
  · simp only [Scope.capture, Array.toList_push, List.map_append, List.map_cons, List.map_nil]
    refine List.nodup_append.mpr ⟨inside.distinct, by simp, ?_⟩
    intro x before y last equal
    obtain ⟨old, present, rfl⟩ := List.mem_map.mp before
    have known := inside.known old (by simpa using present)
    rw [List.mem_singleton.mp last] at equal
    rw [equal, fresh] at known
    cases known

theorem Inside.of_keeps {s around later : Scope} (inside : s.Inside around)
    (keeps : ∀ (x : String) (old : Symbol), around.symbols[x]? = some old → later.symbols[x]? = some old) :
    s.Inside later :=
  ⟨inside.named, inside.stored,
    fun outer present => ⟨keeps _ _ (inside.taken outer present).1, (inside.taken outer present).2⟩,
    inside.known, inside.distinct, inside.apart⟩

-- A name that is looked up is known where the looking begins, or else it is found around: outside all functions, where it
-- is used as it is, or in a function, from which it is captured.
theorem resolveIn_cons {x : String} {s around t : Scope} {rest others : List Scope} {symbol : Symbol}
    (found : resolveIn x s (around :: rest) = some (symbol, t, others)) :
    (s.symbols[x]? = some symbol ∧ t = s ∧ others = around :: rest) ∨
    ∃ outer later beyond, s.symbols[x]? = none ∧ resolveIn x around rest = some (outer, later, beyond) ∧
      others = later :: beyond ∧
      (((outer.storage = .global ∨ outer.storage = .native) ∧ symbol = outer ∧ t = s) ∨
        ((outer.storage ≠ .global ∧ outer.storage ≠ .native) ∧ symbol = (s.capture outer).1 ∧ t = (s.capture outer).2)) := by
  rw [resolveIn] at found
  cases here : s.symbols[x]? with
  | some known =>
    simp only [here, Option.some.injEq, Prod.mk.injEq] at found
    obtain ⟨rfl, rfl, rfl⟩ := found
    exact .inl ⟨rfl, rfl, rfl⟩
  | none =>
    simp only [here] at found
    cases further : resolveIn x around rest with
    | none => simp [further] at found
    | some result =>
      obtain ⟨outer, later, beyond⟩ := result
      simp only [further] at found
      refine .inr ⟨outer, later, beyond, rfl, rfl, ?_⟩
      cases storage : outer.storage with
      | global =>
        simp only [storage, Option.some.injEq, Prod.mk.injEq] at found
        obtain ⟨rfl, rfl, rfl⟩ := found
        exact ⟨rfl, .inl ⟨.inl rfl, rfl, rfl⟩⟩
      | native =>
        simp only [storage, Option.some.injEq, Prod.mk.injEq] at found
        obtain ⟨rfl, rfl, rfl⟩ := found
        exact ⟨rfl, .inl ⟨.inr rfl, rfl, rfl⟩⟩
      | _ =>
        simp only [storage, Option.some.injEq, Prod.mk.injEq] at found
        obtain ⟨rfl, rfl, rfl⟩ := found
        exact ⟨rfl, .inr ⟨by simp, rfl, rfl⟩⟩

theorem resolveIn_nil {x : String} {s t : Scope} {others : List Scope} {symbol : Symbol}
    (found : resolveIn x s [] = some (symbol, t, others)) : s.symbols[x]? = some symbol ∧ t = s ∧ others = [] := by
  rw [resolveIn] at found
  cases here : s.symbols[x]? with
  | none => simp [here] at found
  | some known =>
    simp only [here, Option.map_some, Option.some.injEq, Prod.mk.injEq] at found
    obtain ⟨rfl, rfl, rfl⟩ := found
    exact ⟨rfl, rfl, rfl⟩

theorem resolveIn_capture {x : String} {s around t : Scope} {rest others : List Scope} {symbol : Symbol}
    (free : s.symbols[x]? = none) (found : resolveIn x around rest = some (symbol, t, others))
    (global : symbol.storage ≠ .global) (native : symbol.storage ≠ .native) :
    resolveIn x s (around :: rest) = some ((s.capture symbol).1, (s.capture symbol).2, t :: others) := by
  simp only [resolveIn, free, found]

def counts (t : SymbolTable) : List Nat := t.innermost.slots :: t.enclosing.map Scope.slots

theorem resolveIn_counts {name : String} {s t : Scope} {rest others : List Scope} {symbol : Symbol}
    (found : resolveIn name s rest = some (symbol, t, others)) :
    t.slots = s.slots ∧ others.map Scope.slots = rest.map Scope.slots := by
  induction rest generalizing s t others symbol with
  | nil =>
    obtain ⟨-, rfl, rfl⟩ := resolveIn_nil found
    exact ⟨rfl, rfl⟩
  | cons around rest ih =>
    obtain ⟨-, rfl, rfl⟩ | ⟨outer, later, beyond, -, further, rfl, how⟩ := resolveIn_cons found
    · exact ⟨rfl, rfl⟩
    · obtain ⟨same, others⟩ := ih further
      refine ⟨?_, by rw [List.map_cons, List.map_cons, same, others]⟩
      obtain ⟨-, -, rfl⟩ | ⟨-, -, rfl⟩ := how
      all_goals rfl

theorem resolve_ok {t u : SymbolTable} {name : String} {symbol : Symbol} : t.resolve name = .ok (symbol, u) ↔
    resolveIn name t.innermost t.enclosing = some (symbol, u.innermost, u.enclosing) := by
  rw [resolve]
  cases resolveIn name t.innermost t.enclosing with
  | none => simp
  | some result =>
    obtain ⟨found, s, rest⟩ := result
    simp only [Except.ok.injEq, Prod.mk.injEq, Option.some.injEq]
    refine and_congr_right fun _ => ⟨?_, ?_⟩
    · rintro rfl
      exact ⟨rfl, rfl⟩
    · rintro ⟨rfl, rfl⟩
      rfl

theorem resolve_counts {t u : SymbolTable} {name : String} {symbol : Symbol}
    (found : t.resolve name = .ok (symbol, u)) : u.counts = t.counts := by
  obtain ⟨same, others⟩ := resolveIn_counts (resolve_ok.mp found)
  rw [counts, counts, same, others]

theorem resolveIn_settled {name : String} {s t : Scope} {rest others : List Scope} {symbol : Symbol}
    (fits : Fitting s rest) (found : resolveIn name s rest = some (symbol, t, others)) :
    Settled name s rest symbol t others := by
  induction rest generalizing s t others symbol with
  | nil =>
    obtain ⟨here, rfl, rfl⟩ := resolveIn_nil found
    exact .here fits here
  | cons around rest ih =>
    obtain ⟨here, rfl, rfl⟩ | ⟨outer, later, beyond, here, further, rfl, how⟩ := resolveIn_cons found
    · exact .here fits here
    have settled := ih fits.2 further
    have inside := Inside.of_keeps fits.1 settled.keeps
    obtain ⟨storage, rfl, rfl⟩ | ⟨storage, rfl, rfl⟩ := how
    · have kept := Kept.outside settled.fits settled.kept storage
      exact ⟨⟨inside, settled.fits⟩, .refl _, .cons settled.grows settled.around, rfl, settled.outermost,
        fun _ _ old => old, settled.named, .inl kept⟩
    · have taken := (Kept.inside settled.fits settled.kept storage).2
      rw [← settled.named] at here
      have keeps := Scope.capture_keeps here
      refine ⟨⟨inside_capture inside here taken storage, settled.fits⟩,
        ⟨Nat.le_refl _, ?_, fun x old present _ => keeps x old present⟩, .cons settled.grows settled.around, rfl,
        settled.outermost, keeps, settled.named, ?_⟩
      · simp [Scope.capture]
      · exact .inr ⟨by simp, by simp [Scope.capture]⟩

theorem resolveIn_resolved {name : String} {s t : Scope} {rest others : List Scope} {symbol : Symbol}
    (valid : ValidIn s rest) (found : resolveIn name s rest = some (symbol, t, others)) :
    Resolved name s rest symbol t others := by
  obtain ⟨fits, natives⟩ := validIn_iff.mp valid
  have settled := resolveIn_settled fits found
  refine ⟨settled, validIn_iff.mpr ⟨settled.fits, ?_⟩, ?_⟩
  all_goals rw [settled.outermost]
  exact natives

theorem resolve_resolved {t u : SymbolTable} {name : String} {symbol : Symbol} (valid : t.Valid)
    (found : t.resolve name = .ok (symbol, u)) :
    Resolved name t.innermost t.enclosing symbol u.innermost u.enclosing :=
  resolveIn_resolved valid (resolve_ok.mp found)

-- Outside all functions a name is looked up in one scope, and nothing is captured.
theorem resolve_outside {t u : SymbolTable} (main : t.enclosing = []) {x : String} {symbol : Symbol} :
    t.resolve x = .ok (symbol, u) ↔ t.innermost.symbols[x]? = some symbol ∧ u = t := by
  obtain ⟨s, rest⟩ := t
  cases main
  rw [resolve, resolveIn]
  cases s.symbols[x]? <;> simp [eq_comm]

theorem Resolved.table {t u : SymbolTable} {name : String} {symbol : Symbol}
    (resolved : Resolved name t.innermost t.enclosing symbol u.innermost u.enclosing) : t.Grows u :=
  ⟨resolved.grows, resolved.around⟩

theorem define_ok {t u : SymbolTable} {name : String} {mutability : Mutability} {symbol : Symbol}
    (defined : t.define name mutability = .ok (symbol, u)) :
    t.innermost.declares name = false ∧
    symbol = ⟨name, t.innermost.slots, mutability, if t.isGlobal then .global else .frame⟩ ∧
    u = { t with innermost := { t.innermost.bind symbol with slots := t.innermost.slots + 1 } } := by
  rw [define] at defined
  split at defined
  · cases defined
  · rename_i fresh
    simp only [Except.ok.injEq, Prod.mk.injEq] at defined
    obtain ⟨rfl, rfl⟩ := defined
    exact ⟨by simpa using fresh, rfl, rfl⟩

theorem define_valid {t u : SymbolTable} {name : String} {mutability : Mutability} {symbol : Symbol}
    (valid : t.Valid) (defined : t.define name mutability = .ok (symbol, u)) : u.Valid := by
  obtain ⟨-, rfl, rfl⟩ := define_ok defined
  obtain ⟨s, rest⟩ := t
  cases rest with
  | nil =>
    obtain ⟨outside, natives⟩ := Scope.outermost_iff.mp valid
    exact Scope.outermost_iff.mpr ⟨outside.define name mutability, natives.bind (by simp [isGlobal])⟩
  | cons around rest =>
    exact ⟨valid.1.define name mutability, valid.2⟩

theorem define_grows {t u : SymbolTable} {name : String} {mutability : Mutability} {symbol : Symbol}
    (defined : t.define name mutability = .ok (symbol, u)) : t.Grows u := by
  obtain ⟨fresh, rfl, rfl⟩ := define_ok defined
  refine ⟨⟨Nat.le_succ _, List.prefix_rfl, fun x old found kept => ?_⟩, forall₂_refl _⟩
  simp only [Scope.bind_symbols]
  split
  · rename_i same
    rw [← same] at found
    simp only [Scope.declares, found, Bool.or_eq_false_iff, decide_eq_false_iff_not] at fresh
    exact absurd kept (not_or.mpr fresh)
  · exact found

theorem enter_valid {t : SymbolTable} (valid : t.Valid) : t.enter.Valid := ⟨.empty _, valid⟩

theorem defineItself_valid {t : SymbolTable} {name : String} {mutability : Mutability} (valid : t.Valid)
    (nested : t.enclosing ≠ []) : (t.defineItself name mutability).2.Valid := by
  obtain ⟨s, rest⟩ := t
  cases rest with
  | nil => exact absurd rfl nested
  | cons around rest => exact ⟨valid.1.itself name mutability, valid.2⟩

end SymbolTable
end StackScript
