import Mathlib.Data.List.Nodup
import StackScript.Proofs.Compiler.Trees

-- The order in which the pairs of a hash are written does not matter, as long as no two keys read the same.
namespace StackScript
namespace Compiling

variable {pairs written : List (Expr × Expr)}

-- The order of the texts is total, so that sorting leaves no two pairs the wrong way round.
theorem sorted_byText (pairs : List (Expr × Expr)) : (pairs.mergeSort byText).Pairwise fun p q => byText p q := by
  have trans (p q r : Expr × Expr) (first : byText p q) (second : byText q r) : byText p r := by
    simp only [byText, decide_eq_true_eq] at first second ⊢
    exact String.le_trans first second
  have total (p q : Expr × Expr) : byText p q || byText q p := by
    simp only [byText, Bool.or_eq_true, decide_eq_true_eq]
    exact String.le_total p.1.text q.1.text
  exact List.pairwise_mergeSort trans total pairs

theorem sorted_perm (distinct : (pairs.map fun p => p.1.text).Nodup) (perm : pairs.Perm written) :
    pairs.mergeSort byText = written.mergeSort byText := by
  have sorted : (pairs.mergeSort byText).Perm (written.mergeSort byText) :=
    ((pairs.mergeSort_perm byText).trans perm).trans (written.mergeSort_perm byText).symm
  refine sorted.eq_of_pairwise ?_ (sorted_byText pairs) (sorted_byText written)
  intro p q here there before behind
  have here : p ∈ pairs := (pairs.mergeSort_perm byText).mem_iff.mp here
  have there : q ∈ pairs := perm.mem_iff.mpr ((written.mergeSort_perm byText).mem_iff.mp there)
  -- Two pairs that come before each other have keys of one text, and only one pair has a key of that text.
  have same : p.1.text = q.1.text := by
    simp only [byText, decide_eq_true_eq] at before behind
    exact String.le_antisymm before behind
  exact List.inj_on_of_nodup_map distinct here there same

-- A compiler does the same, and stops at the same error with the same left behind, in whatever order pairs are written.
theorem hash_rearranged (distinct : (pairs.map fun p => p.1.text).Nodup) (perm : pairs.Perm written) (span : Span)
    (c : Compiler) : expression (.hash span pairs) c = expression (.hash span written) c := by
  have steps : (pairSteps pairs).mergeSort (fun a b => a.1 ≤ b.1) =
      (pairSteps written).mergeSort (fun a b => a.1 ≤ b.1) := by
    rw [pairSteps_eq, pairSteps_eq, sorted_map, sorted_map, sorted_perm distinct perm]
  rw [expression, expression, steps, perm.length_eq]

-- {"size": fn() { 2 }, "len": len}
def sized : List (Expr × Expr) :=
  [(.string .unknown "size", .function .unknown none [] [.expression .unknown (.integer .unknown 2)]),
    (.string .unknown "len", .identifier .unknown "len")]

theorem hash_rearranged_sized : (sized.map fun p => p.1.text).Nodup ∧ sized.Perm sized.reverse ∧
    expression (.hash .unknown sized) Compiler.new = expression (.hash .unknown sized.reverse) Compiler.new := by
  have distinct : (sized.map fun p => p.1.text).Nodup := by decide
  have perm : sized.Perm sized.reverse := sized.reverse_perm.symm
  exact ⟨distinct, perm, hash_rearranged distinct perm .unknown Compiler.new⟩

end Compiling
end StackScript
