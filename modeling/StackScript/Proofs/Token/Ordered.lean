import StackScript.Proofs.Token.Places

-- Lexemes stand one behind the other in the source, and none of them is empty.
namespace StackScript

structure Ordered (ls : List Lexeme) : Prop where
  wide : ∀ l ∈ ls, l.span.start < l.span.stop
  apart : ls.Pairwise fun a b => a.span.stop ≤ b.span.start

namespace Scan

theorem lexemesFrom_ordered {found : Array Lexeme} (offset : Nat) (read : Array Lexeme) (text : List Char)
    (known : Ordered read.toList) (behind : ∀ l ∈ read, l.span.stop ≤ offset)
    (scanned : lexemesFrom offset read text = .ok found) : Ordered found.toList := by
  have longer (c : Char) (rest : List Char) : 0 < byteCount (c :: rest) := by
    have size := c.utf8Size_pos
    rw [byteCount_eq, String.utf8Len_cons]
    omega
  fun_induction lexemesFrom offset read text with
  | case1 =>
    cases scanned
    exact known
  | case2 offset read c rest taken text stop same ih =>
    exact ih known (fun l present => Nat.le_trans (behind l present) (Nat.le_add_right _ _)) scanned
  | case3 offset read c rest taken text stop t same ih =>
    have more : offset < stop := Nat.lt_add_of_pos_right (longer c (rest.take taken))
    refine ih ?_ ?_ scanned
    · rw [Array.toList_push]
      constructor
      · intro l present
        rcases List.mem_append.mp present with earlier | here
        · exact known.wide l earlier
        · rw [List.mem_singleton.mp here]
          exact more
      · refine List.pairwise_append.mpr ⟨known.apart, List.pairwise_singleton _ _, ?_⟩
        intro l earlier m here
        rw [List.mem_singleton.mp here]
        exact behind l (Array.mem_toList_iff.mp earlier)
    · intro l present
      rcases Array.mem_push.mp present with earlier | rfl
      · exact Nat.le_of_lt (Nat.lt_of_le_of_lt (behind l earlier) more)
      · exact Nat.le_refl _
  | case4 => cases scanned

end Scan

theorem lexemes_ordered {source : String} {found : Array Lexeme} (scanned : lexemes source = .ok found) :
    Ordered found.toList :=
  Scan.lexemesFrom_ordered 0 #[] source.toList ⟨by simp, by simp⟩ (by simp) scanned

end StackScript
