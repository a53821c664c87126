-- Searching bounds that increase.
namespace StackScript.Text

-- How many of the bounds `lo ..< hi` and before lie at or below `point`, by halving.
def boundsUpTo (bounds : Array Nat) (point : Nat) : Nat → Nat → Nat → Nat
  | 0, lo, _ => lo
  | steps + 1, lo, hi =>
    if lo < hi then
      let middle := (lo + hi) / 2
      match bounds[middle]? with
      | some bound =>
        if bound ≤ point then boundsUpTo bounds point steps (middle + 1) hi
        else boundsUpTo bounds point steps lo middle
      | none => lo
    else lo

theorem boundsUpTo_le (bounds : Array Nat) (point steps : Nat) {lo hi : Nat} (within : lo ≤ hi) :
    boundsUpTo bounds point steps lo hi ≤ hi := by
  induction steps generalizing lo hi with
  | zero => exact within
  | succ steps ih =>
    rw [boundsUpTo]
    split
    · simp only
      split
      · split
        · exact ih (by omega)
        · exact Nat.le_trans (ih (by omega)) (by omega)
      · exact within
    · exact within

end StackScript.Text
