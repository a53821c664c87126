import Mathlib.Data.List.Forall2
import Std.Data.TreeMap.Lemmas
import StackScript.Scope.SymbolTable
import StackScript.Value.Basic

-- What every table of names satisfies between two steps of a compiler, and how a table grows.
namespace StackScript

namespace Scope

@[simp] theorem bind_symbols (s : Scope) (symbol : Symbol) (x : String) :
    (s.bind symbol).symbols[x]? = if symbol.name = x then some symbol else s.symbols[x]? := by
  rw [bind, Std.TreeMap.getElem?_insert]
  simp

@[simp] theorem bind_slots (s : Scope) (symbol : Symbol) : (s.bind symbol).slots = s.slots := rfl

@[simp] theorem bind_captures (s : Scope) (symbol : Symbol) : (s.bind symbol).captures = s.captures := rfl

@[simp] theorem empty_symbols (x : String) : empty.symbols[x]? = none := Std.TreeMap.getElem?_emptyc

-- No two names have the same slot, whether of the function or of the program.
def Apart (s : Scope) : Prop := ∀ (x y : String) (a b : Symbol), s.symbols[x]? = some a → s.symbols[y]? = some b →
  a.storage = b.storage → a.storage = .global ∨ a.storage = .frame → a.index = b.index → a = b

-- The scope outside all functions declares names and holds the native ones.
structure Outermost (s : Scope) : Prop where
  named : ∀ (x : String) (symbol : Symbol), s.symbols[x]? = some symbol → symbol.name = x
  stored : ∀ (x : String) (symbol : Symbol), s.symbols[x]? = some symbol →
    (symbol.storage = .global ∧ symbol.index < s.slots) ∨
    (symbol.storage = .native ∧ symbol.index < Builtin.all.length)
  captures : s.captures = #[]
  apart : s.Apart

-- The same for any native names, under whatever indices they were given.
structure Outside (s : Scope) : Prop where
  named : ∀ (x : String) (symbol : Symbol), s.symbols[x]? = some symbol → symbol.name = x
  stored : ∀ (x : String) (symbol : Symbol), s.symbols[x]? = some symbol →
    (symbol.storage = .global ∧ symbol.index < s.slots) ∨ symbol.storage = .native
  captures : s.captures = #[]
  apart : s.Apart

-- The native names are names of native functions that there are.
def Natives (s : Scope) : Prop := ∀ (x : String) (symbol : Symbol), s.symbols[x]? = some symbol →
  symbol.storage = .native → symbol.index < Builtin.all.length

theorem outermost_iff {s : Scope} : s.Outermost ↔ s.Outside ∧ s.Natives := by
  constructor
  · intro outermost
    refine ⟨⟨outermost.named, ?_, outermost.captures, outermost.apart⟩, ?_⟩
    · intro x symbol found
      exact (outermost.stored x symbol found).imp_right And.left
    · intro x symbol found native
      rcases outermost.stored x symbol found with ⟨global, -⟩ | ⟨-, below⟩
      · cases native.symm.trans global
      · exact below
  · rintro ⟨outside, natives⟩
    refine ⟨outside.named, ?_, outside.captures, outside.apart⟩
    intro x symbol found
    exact (outside.stored x symbol found).imp_right fun native => ⟨native, natives x symbol found native⟩

-- A name that a function has captured means there what it means around, but for the place.
def Captures (s : Scope) (symbol : Symbol) : Prop :=
  ∃ outer, s.captures[symbol.index]? = some outer ∧ symbol = { outer with index := symbol.index, storage := .captured }

-- The scope of a function declares names, captures names from the scope around it and knows its own name.
structure Inside (s around : Scope) : Prop where
  named : ∀ (x : String) (symbol : Symbol), s.symbols[x]? = some symbol → symbol.name = x
  stored : ∀ (x : String) (symbol : Symbol), s.symbols[x]? = some symbol →
    (symbol.storage = .frame ∧ symbol.index < s.slots) ∨ s.Captures symbol ∨ symbol.storage = .itself
  -- Each capture is what its name means around, and lies in a function.
  taken : ∀ outer ∈ s.captures, around.symbols[outer.name]? = some outer ∧
    outer.storage ≠ .global ∧ outer.storage ≠ .native
  known : ∀ outer ∈ s.captures, (s.symbols[outer.name]?).isSome
  distinct : (s.captures.toList.map Symbol.name).Nodup
  apart : s.Apart

-- Names are added, slots counted and captures appended; nothing of it is taken back. What is declared means the same
-- ever after.
structure Grows (s t : Scope) : Prop where
  slots : s.slots ≤ t.slots
  captures : s.captures.toList <+: t.captures.toList
  declared : ∀ (x : String) (symbol : Symbol), s.symbols[x]? = some symbol →
    symbol.storage = .global ∨ symbol.storage = .frame → t.symbols[x]? = some symbol

theorem Grows.refl (s : Scope) : s.Grows s := ⟨Nat.le_refl _, List.prefix_rfl, fun _ _ found _ => found⟩

theorem Grows.trans {s t u : Scope} (left : s.Grows t) (right : t.Grows u) : s.Grows u :=
  ⟨Nat.le_trans left.slots right.slots, left.captures.trans right.captures,
    fun x symbol found kept => right.declared x symbol (left.declared x symbol found kept) kept⟩

end Scope

namespace SymbolTable

-- The scopes of a table fit together, from the innermost to the outermost.
def ValidIn : Scope → List Scope → Prop
  | s, [] => s.Outermost
  | s, around :: rest => s.Inside around ∧ ValidIn around rest

def Valid (t : SymbolTable) : Prop := ValidIn t.innermost t.enclosing

def outermostIn : Scope → List Scope → Scope
  | s, [] => s
  | _, around :: rest => outermostIn around rest

-- The same for any native names.
def Fitting : Scope → List Scope → Prop
  | s, [] => s.Outside
  | s, around :: rest => s.Inside around ∧ Fitting around rest

theorem validIn_iff {s : Scope} {rest : List Scope} :
    ValidIn s rest ↔ Fitting s rest ∧ (outermostIn s rest).Natives := by
  induction rest generalizing s with
  | nil => exact Scope.outermost_iff
  | cons around rest ih => rw [ValidIn, Fitting, outermostIn, ih, and_assoc]

theorem ValidIn.fits {s : Scope} {rest : List Scope} (valid : ValidIn s rest) : Fitting s rest :=
  (validIn_iff.mp valid).1

def globals (t : SymbolTable) : Nat := (outermostIn t.innermost t.enclosing).slots

structure Grows (t u : SymbolTable) : Prop where
  innermost : t.innermost.Grows u.innermost
  enclosing : List.Forall₂ Scope.Grows t.enclosing u.enclosing

theorem forall₂_refl (rest : List Scope) : List.Forall₂ Scope.Grows rest rest := by
  induction rest with
  | nil => exact .nil
  | cons s rest ih => exact .cons (Scope.Grows.refl s) ih

theorem forall₂_trans {xs ys zs : List Scope} (left : List.Forall₂ Scope.Grows xs ys)
    (right : List.Forall₂ Scope.Grows ys zs) : List.Forall₂ Scope.Grows xs zs := by
  induction left generalizing zs with
  | nil => exact right
  | cons first _ ih =>
    cases right with
    | cons next others => exact .cons (first.trans next) (ih others)

theorem Grows.refl (t : SymbolTable) : t.Grows t := ⟨Scope.Grows.refl _, forall₂_refl _⟩

theorem Grows.trans {t u v : SymbolTable} (left : t.Grows u) (right : u.Grows v) : t.Grows v :=
  ⟨left.innermost.trans right.innermost, forall₂_trans left.enclosing right.enclosing⟩

theorem outermostIn_grows {s t : Scope} {xs ys : List Scope} (first : s.Grows t)
    (others : List.Forall₂ Scope.Grows xs ys) : (outermostIn s xs).Grows (outermostIn t ys) := by
  induction others generalizing s t with
  | nil => exact first
  | cons next _ ih => exact ih next

theorem Grows.globals {t u : SymbolTable} (grows : t.Grows u) : t.globals ≤ u.globals :=
  (outermostIn_grows grows.innermost grows.enclosing).slots

theorem Grows.depth {t u : SymbolTable} (grows : t.Grows u) : u.depth = t.depth :=
  grows.enclosing.length_eq.symm

theorem Grows.isGlobal {t u : SymbolTable} (grows : t.Grows u) : u.isGlobal = t.isGlobal := by
  have depth := grows.depth
  simp only [SymbolTable.depth] at depth
  cases h : t.enclosing <;> cases k : u.enclosing <;> simp_all [SymbolTable.isGlobal]

end SymbolTable
end StackScript
