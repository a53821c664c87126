import StackScript.Proofs.Scope.Standing

-- Names that a program declares outside of its functions, whether its run comes to the declarations or not.
namespace StackScript

def Program.outside (p : Program) : List (String × Mutability) := (Scopes.initial.afterAll p.acts).globals

namespace Scopes

variable {s : Scopes} {acts : List Act}

theorem after_beyond (functions : List Level) (globals more : List (String × Mutability)) (a : Act) :
    (⟨functions, globals ++ more⟩ : Scopes).after a =
      ⟨((⟨functions, globals⟩ : Scopes).after a).functions, ((⟨functions, globals⟩ : Scopes).after a).globals ++ more⟩ := by
  cases a with
  | declare x mutability => cases functions <;> rfl
  | _ => rfl

theorem afterAll_beyond (functions : List Level) (globals more : List (String × Mutability)) (acts : List Act) :
    (⟨functions, globals ++ more⟩ : Scopes).afterAll acts =
      ⟨((⟨functions, globals⟩ : Scopes).afterAll acts).functions,
        ((⟨functions, globals⟩ : Scopes).afterAll acts).globals ++ more⟩ := by
  induction acts generalizing functions globals with
  | nil => rfl
  | cons a rest ih =>
    rw [afterAll, List.foldl_cons, after_beyond]
    exact ih _ _

theorem after_distinct {a : Act} (permits : s.Permits a) (distinct : (s.globals.map Prod.fst).Nodup) :
    ((s.after a).globals.map Prod.fst).Nodup := by
  obtain ⟨functions, globals⟩ := s
  cases a with
  | declare x mutability =>
    cases functions with
    | nil => exact List.nodup_cons.mpr ⟨permits, distinct⟩
    | cons l levels => exact distinct
  | _ => exact distinct

theorem afterAll_distinct (correct : s.Correct acts) (distinct : (s.globals.map Prod.fst).Nodup) :
    ((s.afterAll acts).globals.map Prod.fst).Nodup := by
  induction acts generalizing s with
  | nil => exact distinct
  | cons a rest ih => exact ih correct.2 (after_distinct correct.1 distinct)

end Scopes

namespace SymbolTable

variable {t : SymbolTable} {names : List (String × Mutability)}

theorem Stands.main {s : Scopes} (stands : t.Stands s) (main : t.enclosing = []) : s.functions = [] := by
  have same := stands.nested
  rw [isGlobal, main] at same
  exact List.isEmpty_iff.mp same.symm

-- Outside of the functions a name is found as a global one exactly if it is declared there.
theorem Stands.global_iff (stands : t.Stands ⟨[], names⟩) (main : t.enclosing = []) (x : String) :
    (∃ symbol, t.innermost.symbols[x]? = some symbol ∧ symbol.storage = .global) ↔ x ∈ names.map Prod.fst := by
  have bound := stands.names
  rw [main] at bound
  have here := bound x
  rw [Scopes.mem_names]
  constructor
  · rintro ⟨symbol, found, storage⟩
    rw [found, Option.map_some, Symbol.binding_global.mpr ⟨storage, rfl⟩] at here
    exact ⟨symbol.mutability, Scopes.outside?_global.mp here.symm⟩
  · rintro ⟨mutability, known⟩
    rw [Scopes.outside?_global.mpr known] at here
    obtain ⟨symbol, found, binding⟩ := Option.map_eq_some_iff.mp here
    exact ⟨symbol, found, (Symbol.binding_global.mp binding).1⟩

end SymbolTable
end StackScript
