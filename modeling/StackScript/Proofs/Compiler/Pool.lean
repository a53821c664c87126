import StackScript.Proofs.Compiler.Balanced

-- Which values a compiler puts among the constants.
namespace StackScript

def Value.Pooled (v : Value) : Prop := v.Literal ∨ ∃ r, v = .function r

namespace Balanced

theorem pooled {k : Finished} {p q : Point} {a b : Nat} (balanced : Balanced k p a q b) {n : Nat}
    (behind : p.constants ≤ n) (below : n < q.constants) : ∃ v, k.constants[n]? = some v ∧ v.Pooled := by
  induction balanced with
  | nothing => exact absurd behind (Nat.not_le_of_lt below)
  | @seq k p m q a b c left right first second =>
    by_cases early : n < m.constants
    · exact first behind early
    · exact second (Nat.le_of_not_lt early) below
  | plain effect lies =>
    rw [lies.2] at below
    exact absurd behind (Nat.not_le_of_lt below)
  | constant literal lies =>
    obtain ⟨present, -, rfl⟩ := lies
    cases Nat.le_antisymm behind (Nat.le_of_lt_succ below)
    exact ⟨_, present, .inl literal⟩
  | resolve => exact absurd behind (Nat.not_le_of_lt below)
  | read lies =>
    rw [lies.2.2] at below
    exact absurd behind (Nat.not_le_of_lt below)
  | assign _ _ _ lies =>
    rw [lies.2] at below
    exact absurd behind (Nat.not_le_of_lt below)
  | bind _ lies =>
    rw [lies.2.2] at below
    exact absurd behind (Nat.not_le_of_lt below)
  | bindEarly _ _ lies value =>
    rw [lies.2.2] at below
    exact value behind below
  | @choice k p a b c d q h first skip second leap third one two three =>
    obtain ⟨-, rfl⟩ := skip
    obtain ⟨-, rfl⟩ := leap
    by_cases early : n < a.constants
    · exact one behind early
    · by_cases middle : n < c.constants
      · exact two (Nat.le_of_not_lt early) middle
      · exact three (Nat.le_of_not_lt middle) below
  | @function k p q m e last own parameters code scope first table i height h declares inner ends ret size left few slots
      captures _ made loading same making body reads =>
    obtain ⟨-, rfl⟩ := ret
    obtain ⟨-, rfl⟩ := making
    by_cases inside : n < e.constants
    · exact body behind inside
    · rw [same] at below
      cases Nat.le_antisymm (Nat.le_of_not_lt inside) (Nat.le_of_lt_succ below)
      exact ⟨_, made, .inr ⟨_, rfl⟩⟩

end Balanced

-- What a compiler finds among the constants stays, and what it adds are literals and functions.
theorem Compiler.compile_pooled {symbols : SymbolTable} {constants : Array Value} {p : Program} {c : Compiler}
    (valid : symbols.Valid) (main : symbols.enclosing = []) (run : (resume symbols constants).compile p = .ok () c)
    (before : ∀ v ∈ constants, v.Pooled) : ∀ v ∈ c.constants, v.Pooled := by
  obtain ⟨grown, -, -, lies⟩ := compile_lies (resume_ready valid constants) main run
  have balanced := Layout.statements_adds p.statements _ _ _ 0 lies
  refine grown.each _ before fun n v behind below present => ?_
  obtain ⟨w, found, pooled⟩ := balanced.pooled behind below
  cases present.symm.trans found
  exact pooled

end StackScript
