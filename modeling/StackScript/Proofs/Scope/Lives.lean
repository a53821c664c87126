import StackScript.Proofs.Scope.Resolve

-- All tables of names that a program can lead to: its functions open and close, and its names are declared and looked up.
namespace StackScript

-- The names of a scope have slots and captures of their own.
structure Scope.Orderly (s : Scope) : Prop where
  declared : ∀ (x : String) (symbol : Symbol), s.symbols[x]? = some symbol →
    symbol.storage = .global ∨ symbol.storage = .frame → symbol.index < s.slots
  distinct : ∀ (x y : String) (a b : Symbol), s.symbols[x]? = some a → s.symbols[y]? = some b →
    a.storage = .global ∨ a.storage = .frame → b.storage = .global ∨ b.storage = .frame → a.index = b.index → x = y
  captured : ∀ (x : String) (symbol : Symbol), s.symbols[x]? = some symbol → symbol.storage = .captured →
    ∃ outer, s.captures[symbol.index]? = some outer ∧ outer.name = x
  once : (s.captures.toList.map Symbol.name).Nodup

-- What a scope captured is what its name means around, and has a place there.
structure Scope.Linked (s around : Scope) : Prop where
  taken : ∀ outer ∈ s.captures, around.symbols[outer.name]? = some outer
  placed : ∀ outer ∈ s.captures, (outer.storage = .frame ∧ outer.index < around.slots) ∨
    (outer.storage = .captured ∧ outer.index < around.captures.size) ∨ outer.storage = .itself

theorem Scope.Apart.orderly {s : Scope} (apart : s.Apart) (kind : Storage)
    (named : ∀ (x : String) (symbol : Symbol), s.symbols[x]? = some symbol → symbol.name = x)
    (placed : ∀ (x : String) (symbol : Symbol), s.symbols[x]? = some symbol →
      symbol.storage = .global ∨ symbol.storage = .frame → symbol.storage = kind ∧ symbol.index < s.slots)
    (captured : ∀ (x : String) (symbol : Symbol), s.symbols[x]? = some symbol → symbol.storage = .captured →
      ∃ outer, s.captures[symbol.index]? = some outer ∧ outer.name = x)
    (once : (s.captures.toList.map Symbol.name).Nodup) : s.Orderly := by
  refine ⟨fun x symbol found declared => (placed x symbol found declared).2, ?_, captured, once⟩
  intro x y a b one two first second index
  have kinds : a.storage = b.storage := (placed x a one first).1.trans (placed y b two second).1.symm
  rw [← named x a one, ← named y b two, apart x y a b one two kinds first index]

theorem Scope.Outside.orderly {s : Scope} (outside : s.Outside) : s.Orderly := by
  refine outside.apart.orderly .global outside.named ?_ ?_ (by simp [outside.captures])
  · intro x symbol found declared
    rcases outside.stored x symbol found with global | native
    · exact global
    · simp [native] at declared
  · intro x symbol found captured
    rcases outside.outside found with wrong | wrong
    all_goals cases captured.symm.trans wrong

theorem Scope.Inside.orderly {s around : Scope} (inside : s.Inside around) : s.Orderly := by
  refine inside.apart.orderly .frame inside.named ?_ ?_ inside.distinct
  · intro x symbol found declared
    rcases inside.stored x symbol found with frame | ⟨outer, -, captured⟩ | itself
    · exact frame
    · rw [captured] at declared
      simp at declared
    · simp [itself] at declared
  · intro x symbol found captured
    rcases inside.stored x symbol found with ⟨frame, -⟩ | ⟨outer, present, same⟩ | itself
    · cases captured.symm.trans frame
    · have named := inside.named x symbol found
      rw [same] at named
      exact ⟨outer, present, named⟩
    · cases captured.symm.trans itself

namespace SymbolTable

def scopes (t : SymbolTable) : List Scope := t.innermost :: t.enclosing

def natives (entries : List (Nat × String)) : SymbolTable :=
  entries.foldl (fun t entry => (t.defineNative entry.1 entry.2).2) .empty

-- What has happened to an open scope: how many names were declared in it, and what it captured, in order.
structure Life where
  declared : Nat
  captured : List Symbol

-- A scope that knows a name only since it was looked up has captured what the name means around.
def Life.note (life : Life) (x : String) (before after around : Scope) : Life :=
  if before.symbols[x]? = none ∧ after.symbols[x]? ≠ none then
    { life with captured := life.captured ++ around.symbols[x]?.toList }
  else life

def noted (x : String) : List Scope → List Scope → List Life → List Life
  | before :: befores, after :: around :: afters, life :: lives =>
    life.note x before after around :: noted x befores (around :: afters) lives
  | _, _, lives => lives

-- Native names come first. A function can be named in its own scope only, and what fails leaves a table as it is.
inductive Reached : SymbolTable → List Life → Prop where
  | start (entries : List (Nat × String)) : Reached (natives entries) [⟨0, []⟩]
  | enter {t : SymbolTable} {lives : List Life} (reached : Reached t lives) : Reached t.enter (⟨0, []⟩ :: lives)
  | leave {t u : SymbolTable} {s : Scope} {life : Life} {lives : List Life} (reached : Reached t (life :: lives))
      (left : t.leave? = some (s, u)) : Reached u lives
  | define {t u : SymbolTable} {name : String} {mutability : Mutability} {symbol : Symbol} {life : Life}
      {lives : List Life} (reached : Reached t (life :: lives)) (defined : t.define name mutability = .ok (symbol, u)) :
      Reached u ({ life with declared := life.declared + 1 } :: lives)
  | resolve {t u : SymbolTable} {name : String} {symbol : Symbol} {lives : List Life} (reached : Reached t lives)
      (found : t.resolve name = .ok (symbol, u)) : Reached u (noted name t.scopes u.scopes lives)
  | itself {t : SymbolTable} {lives : List Life} (reached : Reached t lives) (nested : t.enclosing ≠ []) (name : String)
      (mutability : Mutability) : Reached (t.defineItself name mutability).2 lives

end SymbolTable

def Scope.Lived (s : Scope) (life : SymbolTable.Life) : Prop :=
  s.slots = life.declared ∧ s.captures.toList = life.captured

namespace SymbolTable

theorem natives_outside (entries : List (Nat × String)) : (natives entries).enclosing = [] ∧
    (natives entries).innermost.Outside ∧ (natives entries).innermost.slots = 0 := by
  have each (t : SymbolTable) (main : t.enclosing = []) (outside : t.innermost.Outside) (unused : t.innermost.slots = 0) :
      let u := entries.foldl (fun t entry => (t.defineNative entry.1 entry.2).2) t
      u.enclosing = [] ∧ u.innermost.Outside ∧ u.innermost.slots = 0 := by
    induction entries generalizing t with
    | nil => exact ⟨main, outside, unused⟩
    | cons entry entries ih =>
      obtain ⟨s, rest⟩ := t
      cases main
      exact ih _ rfl (outside.native entry.1 entry.2 .fixed) unused
  exact each .empty rfl .empty rfl

theorem natives_fits (entries : List (Nat × String)) : Fitting (natives entries).innermost (natives entries).enclosing ∧
    List.Forall₂ Scope.Lived (natives entries).scopes [⟨0, []⟩] := by
  obtain ⟨main, outside, unused⟩ := natives_outside entries
  rw [scopes, main]
  exact ⟨outside, .cons ⟨unused, by rw [outside.captures]⟩ .nil⟩

theorem note_same (life : Life) (x : String) (s around : Scope) : life.note x s s around = life := by
  rw [Life.note, if_neg]
  exact fun fresh => fresh.2 fresh.1

theorem noted_same (x : String) (scopes : List Scope) (lives : List Life) : noted x scopes scopes lives = lives := by
  induction scopes generalizing lives with
  | nil => rfl
  | cons s rest ih =>
    cases rest with
    | nil => rfl
    | cons around rest =>
      cases lives with
      | nil => rfl
      | cons life lives => rw [noted, note_same, ih]

theorem Fitting.along {s a : Scope} {rest within outward : List Scope} (fits : Fitting s rest)
    (shape : s :: rest = within ++ a :: outward) : Fitting a outward := by
  induction within generalizing s rest with
  | nil =>
    cases shape
    exact fits
  | cons first within ih =>
    simp only [List.cons_append, List.cons.injEq] at shape
    cases rest with
    | nil => simp at shape
    | cons around rest => exact ih fits.2 shape.2

theorem Fitting.orderly {s : Scope} {rest : List Scope} (fits : Fitting s rest) : s.Orderly := by
  cases rest with
  | nil => exact Scope.Outside.orderly fits
  | cons around rest => exact fits.1.orderly

theorem Fitting.linked {s around : Scope} {rest : List Scope} (fits : Fitting s (around :: rest)) :
    s.Linked around ∧ (rest = [] → s.captures = #[]) := by
  obtain ⟨inside, outer⟩ := fits
  refine ⟨⟨fun captured present => (inside.taken captured present).1, ?_⟩, ?_⟩
  · intro captured present
    obtain ⟨found, global, native⟩ := inside.taken captured present
    cases storage : captured.storage with
    | global => exact absurd storage global
    | native => exact absurd storage native
    | frame => exact .inl ⟨rfl, outer.orderly.declared _ _ found (.inr storage)⟩
    | captured =>
      obtain ⟨further, present, -⟩ := outer.orderly.captured _ _ found storage
      exact .inr (.inl ⟨rfl, (Array.getElem?_eq_some_iff.mp present).1⟩)
    | itself => exact .inr (.inr rfl)
  · rintro rfl
    have outside : around.Outside := outer
    by_contra captures
    obtain ⟨captured, present⟩ := Array.exists_mem_of_ne_empty _ captures
    obtain ⟨found, global, native⟩ := inside.taken captured present
    rcases outside.outside found with wrong | wrong
    · exact global wrong
    · exact native wrong

-- By induction on the scopes, from the innermost to the outermost.
theorem resolveIn_lived {x : String} {s t : Scope} {rest others : List Scope} {symbol : Symbol} {lives : List Life}
    (fits : Fitting s rest) (found : resolveIn x s rest = some (symbol, t, others))
    (lived : List.Forall₂ Scope.Lived (s :: rest) lives) :
    List.Forall₂ Scope.Lived (t :: others) (noted x (s :: rest) (t :: others) lives) := by
  induction rest generalizing s t others symbol lives with
  | nil =>
    obtain ⟨-, rfl, rfl⟩ := resolveIn_nil found
    rw [noted_same]
    exact lived
  | cons around rest ih =>
    obtain ⟨-, rfl, rfl⟩ | ⟨outer, later, beyond, unknown, further, rfl, how⟩ := resolveIn_cons found
    · rw [noted_same]
      exact lived
    · cases lived with
      | cons first others =>
        have settled := resolveIn_settled fits.2 further
        rw [noted]
        refine .cons ?_ (ih fits.2 further others)
        obtain ⟨storage, -, rfl⟩ | ⟨storage, -, rfl⟩ := how
        · rw [note_same]
          exact first
        · have taken := (Kept.inside settled.fits settled.kept storage).2
          obtain ⟨declared, captured⟩ := first
          rw [settled.named] at taken
          rw [Life.note, if_pos ⟨unknown, by simp [Scope.capture, settled.named]⟩, taken]
          exact ⟨declared, by simp [Scope.capture, captured]⟩

theorem Reached.fits {t : SymbolTable} {lives : List Life} (reached : Reached t lives) :
    Fitting t.innermost t.enclosing ∧ List.Forall₂ Scope.Lived t.scopes lives := by
  induction reached with
  | start entries => exact natives_fits entries
  | enter reached ih => exact ⟨⟨.empty _, ih.1⟩, .cons ⟨rfl, rfl⟩ ih.2⟩
  | @leave t u s life lives reached left ih =>
    obtain ⟨innermost, enclosing⟩ := t
    cases enclosing with
    | nil => simp [leave?] at left
    | cons around rest =>
      simp only [leave?, Option.some.injEq, Prod.mk.injEq] at left
      obtain ⟨rfl, rfl⟩ := left
      cases ih.2 with
      | cons _ others => exact ⟨ih.1.2, others⟩
  | @define t u name mutability symbol life lives reached defined ih =>
    obtain ⟨-, rfl, rfl⟩ := define_ok defined
    obtain ⟨s, rest⟩ := t
    obtain ⟨fits, lived⟩ := ih
    cases lived with
    | cons first others =>
      refine ⟨?_, .cons ⟨congrArg (· + 1) first.1, first.2⟩ others⟩
      cases rest with
      | nil => exact Scope.Outside.define fits name mutability
      | cons around rest => exact ⟨fits.1.define name mutability, fits.2⟩
  | resolve reached found ih =>
    have found := resolve_ok.mp found
    exact ⟨(resolveIn_settled ih.1 found).fits, resolveIn_lived ih.1 found ih.2⟩
  | @itself t lives reached nested name mutability ih =>
    obtain ⟨s, rest⟩ := t
    obtain ⟨fits, lived⟩ := ih
    cases lived with
    | cons first others =>
      refine ⟨?_, .cons first others⟩
      cases rest with
      | nil => exact absurd rfl nested
      | cons around rest => exact ⟨fits.1.itself name mutability, fits.2⟩

-- In every table that can be reached the scopes are in order and linked to those around them. A scope that is left tells
-- what it has captured and how many names were declared in it.
theorem reached_linked {t : SymbolTable} {lives : List Life} (reached : Reached t lives) :
    (∀ s ∈ t.scopes, s.Orderly) ∧
    (∀ within s around outward, t.scopes = within ++ s :: around :: outward →
      s.Linked around ∧ (outward = [] → s.captures = #[])) ∧
    ((t.enclosing = [] ∧ t.leave? = none) ∨ ∃ s u life rest, t.leave? = some (s, u) ∧ t.scopes = s :: u.scopes ∧
      lives = life :: rest ∧ s.captures.toList = life.captured ∧ s.slots = life.declared ∧ Reached u rest) := by
  obtain ⟨fits, lived⟩ := reached.fits
  refine ⟨?_, ?_, ?_⟩
  · intro s present
    obtain ⟨within, outward, shape⟩ := List.append_of_mem present
    exact (fits.along shape).orderly
  · intro within s around outward shape
    exact (fits.along shape).linked
  · obtain ⟨s, enclosing⟩ := t
    cases enclosing with
    | nil => exact .inl ⟨rfl, rfl⟩
    | cons around outward =>
      cases lived with
      | @cons _ life _ rest first others =>
        exact .inr ⟨s, ⟨around, outward⟩, life, rest, rfl, rfl, rfl, first.2, first.1, .leave reached rfl⟩

-- A function in a function captures a name of the outer one.
theorem reached_linked_nested : ∃ t s u, Reached t [⟨0, [⟨"a", 0, .fixed, .frame⟩]⟩, ⟨1, []⟩, ⟨0, []⟩] ∧
    t.leave? = some (s, u) ∧ s.captures.toList = [⟨"a", 0, .fixed, .frame⟩] ∧ s.slots = 0 := by
  have declared := (Reached.start [(0, "len")]).enter.define (show define _ "a" .fixed = .ok _ from rfl)
  have nested := declared.enter.resolve (show resolve _ "a" = .ok _ from rfl)
  obtain ⟨main, -⟩ | ⟨s, u, life, rest, left, -, same, captured, slots, -⟩ := (reached_linked nested).2.2
  · cases main
  · cases same
    exact ⟨_, s, u, nested, left, captured, slots⟩

end SymbolTable
end StackScript
